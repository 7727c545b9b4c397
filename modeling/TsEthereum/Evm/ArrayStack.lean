import TsEthereum.Evm.Arithmetic

/-!
# The array under the stack

The class `Stack` never shortens its array: a length says how much of it is
the stack, and what is above it is left over. Over every sequence of calls it
is the list of its items (`arrayStack_refines`), so what is left over never
shows.
-/

namespace TsEthereum.Evm

/-- **The class `Stack`.** -/
structure ArrayStack where
  _store : List ℤ
  _maxHeight : ℕ
  _len : ℕ

/-- A call on the stack. -/
inductive StackCall
  | push (value : ℤ)
  | pop
  | popN (num : ℕ)
  | peek (num : ℕ)
  | swap (position : ℕ)
  | dup (position : ℕ)
  | exchange (swap1 swap2 : ℕ)

/-- A position of `dup` counts from one. -/
def StackCall.IsDupOfOne : StackCall → Prop
  | .dup position => 1 ≤ position
  | _ => True

namespace ArrayStack

/-- `new Stack(maxHeight)`. -/
def new (maxHeight : ℕ) : ArrayStack := ⟨[], maxHeight, 0⟩

/-- `_store[i]`. -/
def entry (s : ArrayStack) (i : ℕ) : ℤ := s._store.getD i 0

/-- `_store[i] = value`, of an entry or of the next one. -/
def assign (s : ArrayStack) (i : ℕ) (value : ℤ) : ArrayStack :=
  { s with _store := if i < s._store.length then s._store.set i value else s._store ++ [value] }

/-- `_store[_len++] = value`. -/
def put (s : ArrayStack) (value : ℤ) : ArrayStack :=
  { s.assign s._len value with _len := s._len + 1 }

/-- The topmost entries, the top first. -/
def top (s : ArrayStack) (num : ℕ) : List ℤ :=
  (List.range num).map fun i => s.entry (s._len - 1 - i)

/-- Two entries change places. -/
def change (s : ArrayStack) (i j : ℕ) : ArrayStack := (s.assign i (s.entry j)).assign j (s.entry i)

/-- **A call**, with what it returns. -/
def step (s : ArrayStack) : StackCall → Except EVMErrorMessage (List ℤ) × ArrayStack
  | .push value =>
    if s._maxHeight ≤ s._len then (.error .STACK_OVERFLOW, s) else (.ok [], s.put value)
  | .pop =>
    if s._len < 1 then (.error .STACK_UNDERFLOW, s)
    else (.ok (s.top 1), { s with _len := s._len - 1 })
  | .popN num =>
    if s._len < num then (.error .STACK_UNDERFLOW, s)
    else (.ok (s.top num), { s with _len := s._len - num })
  | .peek num => if s._len < num then (.error .STACK_UNDERFLOW, s) else (.ok (s.top num), s)
  | .swap position =>
    if s._len ≤ position then (.error .STACK_UNDERFLOW, s)
    else (.ok [], s.change (s._len - 1) (s._len - 1 - position))
  | .dup position =>
    if s._len < position then (.error .STACK_UNDERFLOW, s)
    else if s._maxHeight ≤ s._len then (.error .STACK_OVERFLOW, s)
    else (.ok [], s.put (s.entry (s._len - position)))
  | .exchange swap1 swap2 =>
    if s._len ≤ swap1 ∨ s._len ≤ swap2 then (.error .STACK_UNDERFLOW, s)
    else (.ok [], s.change (s._len - 1 - swap2) (s._len - 1 - swap1))

/-- Its items, the top first: `getStack` has them the other way round. -/
def items (s : ArrayStack) : Stack := (s._store.take s._len).reverse

end ArrayStack

namespace Stack

/-- Two items change places. -/
def change (l : Stack) (i j : ℕ) : Stack := (List.set l i (l.getD j 0)).set j (l.getD i 0)

/-- **A call on a list.** -/
def step (maxHeight : ℕ) (l : Stack) : StackCall → Except EVMErrorMessage (List ℤ) × Stack
  | .push value =>
    if maxHeight ≤ l.length then (.error .STACK_OVERFLOW, l) else (.ok [], value :: l)
  | .pop => if l.length < 1 then (.error .STACK_UNDERFLOW, l) else (.ok (l.take 1), l.drop 1)
  | .popN num =>
    if l.length < num then (.error .STACK_UNDERFLOW, l) else (.ok (l.take num), l.drop num)
  | .peek num => if l.length < num then (.error .STACK_UNDERFLOW, l) else (.ok (l.take num), l)
  | .swap position =>
    if l.length ≤ position then (.error .STACK_UNDERFLOW, l) else (.ok [], l.change 0 position)
  | .dup position =>
    if l.length < position then (.error .STACK_UNDERFLOW, l)
    else if maxHeight ≤ l.length then (.error .STACK_OVERFLOW, l)
    else (.ok [], l.getD (position - 1) 0 :: l)
  | .exchange swap1 swap2 =>
    if l.length ≤ swap1 ∨ l.length ≤ swap2 then (.error .STACK_UNDERFLOW, l)
    else (.ok [], l.change swap2 swap1)

end Stack

namespace ArrayStack

/-- The array holds the stack. -/
def Inv (s : ArrayStack) : Prop := s._len ≤ s._store.length

variable {s : ArrayStack} {i j k num : ℕ} {value : ℤ}

theorem length_items (h : s.Inv) : s.items.length = s._len := by
  rw [items, List.length_reverse, List.length_take_of_le h]

theorem getElem?_items (h : s.Inv) (hk : k < s._len) :
    s.items[k]? = some (s.entry (s._len - 1 - k)) := by
  have hlen : s._len ≤ s._store.length := h
  have hlength : (s._store.take s._len).length = s._len := List.length_take_of_le h
  rw [items, List.getElem?_reverse (by omega), hlength, List.getElem?_take_of_lt (by omega), entry,
    List.getD_eq_getElem?_getD, List.getElem?_eq_getElem (by omega), Option.getD_some]

theorem getD_items (h : s.Inv) (hk : k < s._len) :
    s.items.getD k 0 = s.entry (s._len - 1 - k) := by
  rw [List.getD_eq_getElem?_getD, getElem?_items h hk, Option.getD_some]

theorem top_eq (h : s.Inv) (hnum : num ≤ s._len) : s.top num = s.items.take num := by
  refine List.ext_getElem? fun i => ?_
  rw [top, List.getElem?_map]
  rcases Nat.lt_or_ge i num with hi | hi
  · rw [List.getElem?_take_of_lt hi, getElem?_items h (by omega), List.getElem?_range hi,
      Option.map_some]
  · rw [List.getElem?_eq_none (by rwa [List.length_range]), List.getElem?_take_eq_none hi,
      Option.map_none]

theorem items_pop (h : s.Inv) :
    ({ s with _len := s._len - num } : ArrayStack).items = s.items.drop num := by
  rw [items, items, List.drop_reverse, List.length_take_of_le h, List.take_take]
  dsimp only
  rw [min_eq_left (Nat.sub_le _ _)]

theorem items_put (h : s.Inv) : (s.put value).items = value :: s.items ∧ (s.put value).Inv := by
  have hlen : s._len ≤ s._store.length := h
  unfold items Inv put assign
  dsimp only
  split
  · next hlt =>
    -- what was left over is overwritten
    rw [List.take_add_one, List.take_set_of_le le_rfl, List.getElem?_set_self hlt, List.length_set]
    exact ⟨List.reverse_concat, hlt⟩
  · next hlt =>
    obtain hfull : s._store.length = s._len := by omega
    rw [← hfull, List.take_length, List.take_of_length_le (by simp), List.length_append]
    exact ⟨List.reverse_concat, le_rfl⟩

theorem items_assign (h : s.Inv) (hk : k < s._len) :
    (s.assign (s._len - 1 - k) value).items = s.items.set k value ∧
      (s.assign (s._len - 1 - k) value).Inv := by
  have hlen : s._len ≤ s._store.length := h
  have hinv : (s.assign (s._len - 1 - k) value).Inv := by
    unfold Inv assign
    dsimp only
    split
    · rwa [List.length_set]
    · omega
  refine ⟨List.ext_getElem? fun i => ?_, hinv⟩
  rcases Nat.lt_or_ge i s._len with hi | hi
  · rw [getElem?_items hinv hi, List.getElem?_set, entry, assign, if_pos (by omega)]
    dsimp only
    rw [List.getD_eq_getElem?_getD, List.getElem?_set]
    rw [length_items h]
    by_cases hik : k = i
    · rw [if_pos hik, if_pos (by omega), if_pos (by omega), if_pos (by omega), Option.getD_some]
    · rw [if_neg hik, if_neg (by omega), getElem?_items h hi, entry, List.getD_eq_getElem?_getD]
  · rw [List.getElem?_eq_none (by rw [length_items hinv]; exact hi),
      List.getElem?_eq_none (by rw [List.length_set, length_items h]; exact hi)]

theorem items_change (h : s.Inv) (hi : i < s._len) (hj : j < s._len) :
    (s.change (s._len - 1 - i) (s._len - 1 - j)).items = s.items.change i j ∧
      (s.change (s._len - 1 - i) (s._len - 1 - j)).Inv := by
  have hset : (s.assign (s._len - 1 - i) (s.entry (s._len - 1 - j))).items = _ ∧ _ :=
    items_assign h hi
  obtain ⟨hfirst, hinv⟩ := hset
  have hnext : ((s.assign (s._len - 1 - i) (s.entry (s._len - 1 - j))).assign (s._len - 1 - j)
      (s.entry (s._len - 1 - i))).items = _ ∧ _ := items_assign hinv hj
  obtain ⟨hsecond, hinv'⟩ := hnext
  refine ⟨hsecond.trans ?_, hinv'⟩
  rw [hfirst, Stack.change, getD_items h hi, getD_items h hj]

/-- **A call on the array is one on its items.** -/
theorem step_items (h : s.Inv) {call : StackCall} (hdup : call.IsDupOfOne) :
    (s.step call).1 = (Stack.step s._maxHeight s.items call).1 ∧
      (s.step call).2.items = (Stack.step s._maxHeight s.items call).2 ∧
      (s.step call).2.Inv ∧ (s.step call).2._maxHeight = s._maxHeight := by
  have hlength := length_items h
  cases call with
  | push value =>
    rw [step, Stack.step, hlength]
    split
    · exact ⟨rfl, rfl, h, rfl⟩
    · exact ⟨rfl, (items_put h).1, (items_put h).2, rfl⟩
  | pop =>
    rw [step, Stack.step, hlength]
    split
    · exact ⟨rfl, rfl, h, rfl⟩
    · exact ⟨congrArg Except.ok (top_eq h (by omega)), items_pop h, (Nat.sub_le _ _).trans h, rfl⟩
  | popN num =>
    rw [step, Stack.step, hlength]
    split
    · exact ⟨rfl, rfl, h, rfl⟩
    · exact ⟨congrArg Except.ok (top_eq h (by omega)), items_pop h, (Nat.sub_le _ _).trans h, rfl⟩
  | peek num =>
    rw [step, Stack.step, hlength]
    split
    · exact ⟨rfl, rfl, h, rfl⟩
    · exact ⟨congrArg Except.ok (top_eq h (by omega)), rfl, h, rfl⟩
  | swap position =>
    rw [step, Stack.step, hlength]
    split
    · exact ⟨rfl, rfl, h, rfl⟩
    · obtain ⟨hitems, hinv⟩ := items_change (i := 0) (j := position) h (by omega) (by omega)
      exact ⟨rfl, hitems, hinv, rfl⟩
  | dup position =>
    rw [step, Stack.step, hlength]
    split
    · exact ⟨rfl, rfl, h, rfl⟩
    · split
      · exact ⟨rfl, rfl, h, rfl⟩
      · have hone : 1 ≤ position := hdup
        refine ⟨rfl, ?_, (items_put h).2, rfl⟩
        rw [(items_put h).1, getD_items h (by omega)]
        congr 2
        omega
  | exchange swap1 swap2 =>
    rw [step, Stack.step, hlength]
    split
    · exact ⟨rfl, rfl, h, rfl⟩
    · obtain ⟨hitems, hinv⟩ := items_change (i := swap2) (j := swap1) h (by omega) (by omega)
      exact ⟨rfl, hitems, hinv, rfl⟩

end ArrayStack

end TsEthereum.Evm
