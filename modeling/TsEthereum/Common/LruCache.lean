import Mathlib.Data.List.Basic
import Mathlib.Data.Prod.Basic
import Mathlib.Logic.Function.Basic
import Mathlib.Data.Finset.Card
import Mathlib.Data.Finset.Dedup

/-!
# Caches that may forget

What a bounded cache promises its user: a read returns what the cache
holds, a write makes it hold the written value or nothing, and it never
holds a value nobody wrote. Which entry gives way when it is full is left
open, so a result about a `LruCache` holds under every eviction policy and
every size. `lru` is the least-recently-used one.
-/

namespace TsEthereum

/-- **A cache that may forget.** `holds` is what a read would find. -/
structure LruCache (κ ν : Type) where
  State : Type
  empty : State
  holds : State → κ → Option ν
  get : State → κ → Option ν × State
  set : State → κ → ν → State
  delete : State → κ → State
  holds_empty : ∀ k, holds empty k = none
  get_fst : ∀ s k, (get s k).1 = holds s k
  holds_get : ∀ s k k', holds (get s k).2 k' = holds s k'
  /-- A write may evict any other entry, and even its own. -/
  holds_set : ∀ s k v k' v', holds (set s k v) k' = some v' →
    k' = k ∧ v' = v ∨ k' ≠ k ∧ holds s k' = some v'
  holds_delete : ∀ s k k' v', holds (delete s k) k' = some v' → k' ≠ k ∧ holds s k' = some v'

namespace LruCache

variable {κ ν : Type} [DecidableEq κ]

/-- The entries but the one at `k`. -/
def eraseKey (s : List (κ × ν)) (k : κ) : List (κ × ν) := s.filter fun e => !decide (e.1 = k)

theorem lookup_eraseKey (s : List (κ × ν)) (k k' : κ) :
    (eraseKey s k).lookup k' = if k' = k then none else s.lookup k' := by
  induction s with
  | nil => simp [eraseKey]
  | cons e s ih =>
    obtain ⟨a, v⟩ := e
    simp only [eraseKey] at ih
    by_cases ha : a = k
    · subst ha
      by_cases hk : k' = a
      · simpa [eraseKey, hk] using ih
      · simp [eraseKey, List.lookup_cons, beq_false_of_ne hk, ih, hk]
    · by_cases hk : k' = a
      · subst hk
        simp [eraseKey, ha]
      · simp [eraseKey, ha, List.lookup_cons, beq_false_of_ne hk, ih]

theorem lookup_of_prefix {s t : List (κ × ν)} (h : s <+: t) {k : κ} {v : ν}
    (hs : s.lookup k = some v) : t.lookup k = some v := by
  obtain ⟨u, rfl⟩ := h
  rw [List.lookup_append, hs, Option.some_or]

/-- **The least-recently-used cache of `max` entries**, most recently used
first. -/
def lru (κ ν : Type) [DecidableEq κ] (max : ℕ) : LruCache κ ν where
  State := List (κ × ν)
  empty := []
  holds s k := s.lookup k
  get s k :=
    match s.lookup k with
    | some v => (some v, (k, v) :: eraseKey s k)
    | none => (none, s)
  set s k v := ((k, v) :: eraseKey s k).take max
  delete s k := eraseKey s k
  holds_empty k := rfl
  get_fst s k := by cases s.lookup k <;> rfl
  holds_get s k k' := by
    cases h : s.lookup k with
    | none => rfl
    | some v =>
      by_cases hk : k' = k
      · subst hk
        simp [h]
      · simp [List.lookup_cons, beq_false_of_ne hk, lookup_eraseKey, hk]
  holds_set s k v k' v' h := by
    have h' := lookup_of_prefix (List.take_prefix _ _) h
    by_cases hk : k' = k
    · subst hk
      exact .inl ⟨rfl, by simpa using h'.symm⟩
    · simp only [List.lookup_cons, beq_false_of_ne hk, lookup_eraseKey, if_neg hk] at h'
      exact .inr ⟨hk, h'⟩
  holds_delete s k k' v' h := by
    rw [lookup_eraseKey] at h
    split at h
    · cases h
    · rename_i hk
      exact ⟨hk, h⟩

/-! ## What the least-recently-used cache forgets -/

section

variable {s : List (κ × ν)} {k : κ} {v : ν} {n : ℕ}

/-- The entries with one that is set, if none gave way. -/
def mostRecent (s : List (κ × ν)) (e : κ × ν) : List (κ × ν) := e :: eraseKey s e.1

theorem eraseKey_cons_self (s : List (κ × ν)) (k : κ) (v : ν) :
    eraseKey ((k, v) :: s) k = eraseKey s k := by
  simp [eraseKey]

theorem eraseKey_cons_of_ne {e : κ × ν} (h : e.1 ≠ k) (s : List (κ × ν)) :
    eraseKey (e :: s) k = e :: eraseKey s k := by
  simp [eraseKey, h]

theorem eraseKey_of_notMem (h : k ∉ s.map Prod.fst) : eraseKey s k = s := by
  rw [eraseKey, List.filter_eq_self]
  rintro e he
  have hne : e.1 ≠ k := fun heq => h (List.mem_map.2 ⟨e, he, heq⟩)
  simpa using hne

theorem mem_map_eraseKey {k' : κ} :
    k' ∈ (eraseKey s k).map Prod.fst ↔ k' ≠ k ∧ k' ∈ s.map Prod.fst := by
  simp only [eraseKey, List.mem_map, List.mem_filter]
  constructor
  · rintro ⟨e, ⟨he, hne⟩, rfl⟩
    exact ⟨by simpa using hne, e, he, rfl⟩
  · rintro ⟨hne, e, he, rfl⟩
    exact ⟨e, ⟨he, by simpa using hne⟩, rfl⟩

theorem nodup_eraseKey (h : (s.map Prod.fst).Nodup) (k : κ) :
    ((eraseKey s k).map Prod.fst).Nodup :=
  (List.filter_sublist.map _).nodup h

theorem nodup_mostRecent (h : (s.map Prod.fst).Nodup) (e : κ × ν) :
    ((mostRecent s e).map Prod.fst).Nodup := by
  rw [mostRecent, List.map_cons, List.nodup_cons]
  exact ⟨fun hmem => (mem_map_eraseKey.1 hmem).1 rfl, nodup_eraseKey h _⟩

theorem eraseKey_eraseKey (s : List (κ × ν)) (k : κ) : eraseKey (eraseKey s k) k = eraseKey s k :=
  eraseKey_of_notMem fun hmem => (mem_map_eraseKey.1 hmem).1 rfl

theorem lru_set_get (s : (lru κ ν n).State) (k : κ) (v : ν) :
    (lru κ ν n).set ((lru κ ν n).get s k).2 k v = (lru κ ν n).set s k v := by
  have hget : eraseKey ((lru κ ν n).get s k).2 k = eraseKey s k := by
    unfold lru
    dsimp only
    split
    · rw [eraseKey_cons_self]
      exact eraseKey_eraseKey s k
    · rfl
  exact congrArg (fun rest => ((k, v) :: rest).take n) hget

theorem take_eraseKey_take (h : (s.map Prod.fst).Nodup) (k : κ) (n : ℕ) :
    (eraseKey (s.take (n + 1)) k).take n = (eraseKey s k).take n := by
  induction s generalizing n with
  | nil => rfl
  | cons e s ih =>
    rw [List.map_cons, List.nodup_cons] at h
    rw [List.take_succ_cons]
    rcases eq_or_ne e.1 k with rfl | hne
    · have htake : e.1 ∉ (s.take n).map Prod.fst := fun hmem =>
        h.1 ((List.take_sublist n s).map _ |>.subset hmem)
      rw [show e = (e.1, e.2) from rfl, eraseKey_cons_self, eraseKey_cons_self,
        eraseKey_of_notMem htake, eraseKey_of_notMem h.1, List.take_take, Nat.min_self]
    · rw [eraseKey_cons_of_ne hne, eraseKey_cons_of_ne hne]
      rcases n with _ | n
      · rfl
      · rw [List.take_succ_cons, List.take_succ_cons, ih h.2]

theorem take_mostRecent_take (h : (s.map Prod.fst).Nodup) (e : κ × ν) (n : ℕ) :
    (mostRecent (s.take n) e).take n = (mostRecent s e).take n := by
  rcases n with _ | n
  · rfl
  · rw [mostRecent, mostRecent, List.take_succ_cons, List.take_succ_cons,
      take_eraseKey_take h]

theorem nodup_foldl_mostRecent (h : (s.map Prod.fst).Nodup) (es : List (κ × ν)) :
    ((es.foldl mostRecent s).map Prod.fst).Nodup := by
  induction es generalizing s with
  | nil => exact h
  | cons e es ih => exact ih (nodup_mostRecent h e)

theorem foldl_take_mostRecent (h : (s.map Prod.fst).Nodup) (n : ℕ) (es : List (κ × ν)) :
    es.foldl (fun s e => (mostRecent s e).take n) (s.take n) =
      (es.foldl mostRecent s).take n := by
  induction es generalizing s with
  | nil => rfl
  | cons e es ih =>
    rw [List.foldl_cons, List.foldl_cons, ← ih (nodup_mostRecent h e)]
    congr 1
    exact take_mostRecent_take h e n

theorem foldl_mostRecent_append (es A B : List (κ × ν)) (hk : k ∉ es.map Prod.fst) :
    ∃ A' B', es.foldl mostRecent (A ++ (k, v) :: B) = A' ++ (k, v) :: B' ∧
      ∀ k', k' ∈ A'.map Prod.fst ↔ k' ∈ es.map Prod.fst ∨ k' ∈ A.map Prod.fst := by
  induction es generalizing A B with
  | nil => exact ⟨A, B, rfl, fun k' => by simp⟩
  | cons e es ih =>
    rw [List.map_cons, List.mem_cons, not_or] at hk
    obtain ⟨A', B', heq, hmem⟩ := ih (e :: eraseKey A e.1) (eraseKey B e.1) hk.2
    refine ⟨A', B', ?_, fun k' => ?_⟩
    · rw [List.foldl_cons, ← heq, mostRecent, eraseKey, List.filter_append,
        ← eraseKey, ← eraseKey, eraseKey_cons_of_ne hk.1, List.cons_append]
    · rw [hmem, List.map_cons, List.mem_cons, List.map_cons, List.mem_cons, mem_map_eraseKey]
      by_cases hk' : k' = e.1
      · simp [hk']
      · simp [hk']

theorem lookup_append_cons {A B : List (κ × ν)} (h : k ∉ A.map Prod.fst) :
    (A ++ (k, v) :: B).lookup k = some v := by
  induction A with
  | nil => simp
  | cons e A ih =>
    rw [List.map_cons, List.mem_cons, not_or] at h
    rw [List.cons_append, List.lookup_cons, beq_false_of_ne h.1]
    exact ih h.2

theorem lookup_of_notMem (h : k ∉ s.map Prod.fst) : s.lookup k = none := by
  induction s with
  | nil => rfl
  | cons e s ih =>
    rw [List.map_cons, List.mem_cons, not_or] at h
    rw [List.lookup_cons, beq_false_of_ne h.1]
    exact ih h.2

/-- **An entry is forgotten when `n` others are set after it**, and not
before. -/
theorem lookup_foldl_take (pre post : List (κ × ν)) (h : (s.map Prod.fst).Nodup)
    (hk : k ∉ post.map Prod.fst) :
    ((pre ++ (k, v) :: post).foldl (fun s e => (mostRecent s e).take n) (s.take n)).lookup k =
      if (post.map Prod.fst).toFinset.card < n then some v else none := by
  have hnodup := nodup_foldl_mostRecent h (pre ++ (k, v) :: post)
  rw [foldl_take_mostRecent h]
  rw [List.foldl_append, List.foldl_cons, mostRecent] at hnodup ⊢
  obtain ⟨A, B, heq, hmem⟩ := foldl_mostRecent_append (v := v) post []
    (eraseKey (pre.foldl mostRecent s) k) hk
  rw [List.nil_append] at heq
  rw [heq] at hnodup ⊢
  have hA : k ∉ A.map Prod.fst := fun hkA => hk (by simpa using (hmem k).1 hkA)
  have hcard : (post.map Prod.fst).toFinset.card = A.length := by
    rw [← List.length_map (f := Prod.fst), ← List.toFinset_card_of_nodup
      ((List.map_append ▸ hnodup).of_append_left)]
    congr 1
    ext k'
    rw [List.mem_toFinset, List.mem_toFinset, hmem]
    simp
  rw [hcard]
  split
  · next hlt =>
    obtain ⟨m, rfl⟩ := Nat.exists_eq_add_of_lt hlt
    rw [show A.length + m + 1 = A.length + (m + 1) from rfl, List.take_length_add_append,
      List.take_succ_cons]
    exact lookup_append_cons hA
  · next hge =>
    rw [List.take_append_of_le_length (Nat.not_lt.1 hge)]
    exact lookup_of_notMem fun hmem => hA ((List.take_sublist n A).map _ |>.subset hmem)

/-- **The entries have different keys, and are no more than fit.** -/
def Fits (n : ℕ) (s : List (κ × ν)) : Prop := (s.map Prod.fst).Nodup ∧ s.length ≤ n

theorem fits_set (h : (s.map Prod.fst).Nodup) (k : κ) (v : ν) :
    Fits n ((mostRecent s (k, v)).take n) :=
  ⟨((List.take_sublist n _).map _).nodup (nodup_mostRecent h _), List.length_take_le ..⟩

theorem fits_eraseKey (h : Fits n s) (k : κ) : Fits n (eraseKey s k) :=
  ⟨nodup_eraseKey h.1 k, (List.length_filter_le _ _).trans h.2⟩

theorem fits_get (h : Fits n s) (hk : s.lookup k = some v) : Fits n ((k, v) :: eraseKey s k) := by
  refine ⟨nodup_mostRecent h.1 (k, v), le_trans ?_ h.2⟩
  have hmem : k ∈ s.map Prod.fst := by
    by_contra hnot
    rw [lookup_of_notMem hnot] at hk
    cases hk
  obtain ⟨e, he, rfl⟩ := List.mem_map.1 hmem
  have hlt : (eraseKey s e.1).length < s.length :=
    List.length_filter_lt_length_iff_exists.2 ⟨e, he, by simp⟩
  rw [List.length_cons]
  omega

end

/-- **A map**, which never forgets. -/
def orderedMap (κ ν : Type) [DecidableEq κ] : LruCache κ ν where
  State := κ → Option ν
  empty _ := none
  holds s k := s k
  get s k := (s k, s)
  set s k v := Function.update s k (some v)
  delete s k := Function.update s k none
  holds_empty _ := rfl
  get_fst _ _ := rfl
  holds_get _ _ _ := rfl
  holds_set s k v k' v' h := by
    rcases eq_or_ne k' k with rfl | hk
    · rw [Function.update_self] at h
      exact .inl ⟨rfl, (Option.some.inj h).symm⟩
    · rw [Function.update_of_ne hk] at h
      exact .inr ⟨hk, h⟩
  holds_delete s k k' v' h := by
    rcases eq_or_ne k' k with rfl | hk
    · rw [Function.update_self] at h
      cases h
    · rw [Function.update_of_ne hk] at h
      exact ⟨hk, h⟩

theorem orderedMap_get (s : (orderedMap κ ν).State) (k : κ) :
    (orderedMap κ ν).get s k = ((orderedMap κ ν).holds s k, s) := rfl

theorem orderedMap_holds_set (s : (orderedMap κ ν).State) (k k' : κ) (v : ν) :
    (orderedMap κ ν).holds ((orderedMap κ ν).set s k v) k' =
      if k' = k then some v else (orderedMap κ ν).holds s k' :=
  Function.update_apply ..

end LruCache

end TsEthereum
