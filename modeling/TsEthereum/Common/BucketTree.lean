import Mathlib.Data.List.Perm.Basic
import Mathlib.Data.List.Range

/-!
# Trees of buckets

A binary tree with its items in buckets at the leaves; an index goes down by its
bits (`find`), and the bucket it comes to can be put another tree for
(`replace`). A bucket may be closed to splits. `AllBuckets` says of each bucket
and its path what `replace` keeps (`AllBuckets.replace`), and `Placed` that every
item stands where its own key leads, so that no item is missed
(`Placed.mem_find`).
-/

namespace TsEthereum

/-- **A tree of buckets.** -/
inductive BucketTree (α : Type) where
  | bucket (items : List α) (closed : Bool)
  | fork (left right : BucketTree α)

/-- A bucket, and how deep it is. -/
structure Bucket (α : Type) where
  items : List α
  closed : Bool
  depth : ℕ

namespace BucketTree

variable {α ι : Type}

/-- All items, from left to right. -/
def items : BucketTree α → List α
  | bucket items _ => items
  | fork left right => left.items ++ right.items

/-- The buckets with their paths, from left to right. -/
def buckets : BucketTree α → List Bool → List (List Bool × List α × Bool)
  | bucket items closed, path => [(path, items, closed)]
  | fork left right, path => left.buckets (path ++ [false]) ++ right.buckets (path ++ [true])

section

variable (bit : ι → ℕ → Bool)

/-- The bucket an index leads to. -/
def find (i : ι) : BucketTree α → ℕ → Bucket α
  | bucket items closed, depth => ⟨items, closed, depth⟩
  | fork left right, depth =>
    if bit i depth then right.find i (depth + 1) else left.find i (depth + 1)

/-- A tree in place of the bucket an index leads to. -/
def replace (i : ι) : BucketTree α → BucketTree α → ℕ → BucketTree α
  | bucket _ _, new, _ => new
  | fork left right, new, depth =>
    if bit i depth then fork left (right.replace i new (depth + 1))
    else fork (left.replace i new (depth + 1)) right

/-- The first bits of an index. -/
def bitsTo (i : ι) (depth : ℕ) : List Bool := (List.range depth).map (bit i)

@[simp] theorem bitsTo_zero (i : ι) : bitsTo bit i 0 = [] := rfl

@[simp] theorem length_bitsTo (i : ι) (depth : ℕ) : (bitsTo bit i depth).length = depth := by
  rw [bitsTo, List.length_map, List.length_range]

theorem bitsTo_succ (i : ι) (depth : ℕ) :
    bitsTo bit i (depth + 1) = bitsTo bit i depth ++ [bit i depth] := by
  rw [bitsTo, List.range_succ, List.map_append, List.map_singleton, bitsTo]

theorem bit_eq_of_bitsTo {i j : ι} {depth d : ℕ} (h : bitsTo bit i depth = bitsTo bit j depth)
    (hd : d < depth) : bit i d = bit j d := by
  simp only [bitsTo, List.map_inj_left, List.mem_range] at h
  exact h d hd

end

/-! ## What holds of every bucket -/

/-- **Every bucket** is so, with the path it is at. -/
def AllBuckets (P : List Bool → List α → Bool → Prop) (t : BucketTree α) (path : List Bool) : Prop :=
  ∀ p items closed, (p, items, closed) ∈ t.buckets path → P p items closed

section

variable {P : List Bool → List α → Bool → Prop} {path : List Bool}

theorem allBuckets_bucket {items : List α} {closed : Bool} :
    AllBuckets P (bucket items closed) path ↔ P path items closed := by
  constructor
  · intro h
    exact h _ _ _ (List.mem_singleton.2 rfl)
  · intro h p items' closed' hmem
    cases List.mem_singleton.1 hmem
    exact h

theorem allBuckets_fork {left right : BucketTree α} : AllBuckets P (fork left right) path ↔
    AllBuckets P left (path ++ [false]) ∧ AllBuckets P right (path ++ [true]) := by
  constructor
  · intro h
    exact ⟨fun p items closed hmem => h p items closed (List.mem_append_left _ hmem),
      fun p items closed hmem => h p items closed (List.mem_append_right _ hmem)⟩
  · rintro ⟨hleft, hright⟩ p items closed hmem
    rcases List.mem_append.1 hmem with hmem | hmem
    · exact hleft p items closed hmem
    · exact hright p items closed hmem

variable (bit : ι → ℕ → Bool)

theorem AllBuckets.find {t : BucketTree α} {i : ι} {depth : ℕ}
    (h : AllBuckets P t (bitsTo bit i depth)) :
    P (bitsTo bit i (t.find bit i depth).depth) (t.find bit i depth).items
      (t.find bit i depth).closed := by
  induction t generalizing depth with
  | bucket items closed => exact allBuckets_bucket.1 h
  | fork left right ihleft ihright =>
    obtain ⟨hleft, hright⟩ := allBuckets_fork.1 h
    rw [BucketTree.find]
    split
    · rename_i hbit
      refine ihright ?_
      rw [bitsTo_succ, hbit]
      exact hright
    · rename_i hbit
      refine ihleft ?_
      rw [bitsTo_succ, Bool.eq_false_iff.2 hbit]
      exact hleft

theorem AllBuckets.replace {t new : BucketTree α} {i : ι} {depth : ℕ}
    (h : AllBuckets P t (bitsTo bit i depth))
    (hnew : AllBuckets P new (bitsTo bit i (t.find bit i depth).depth)) :
    AllBuckets P (t.replace bit i new depth) (bitsTo bit i depth) := by
  induction t generalizing depth with
  | bucket items closed => exact hnew
  | fork left right ihleft ihright =>
    obtain ⟨hleft, hright⟩ := allBuckets_fork.1 h
    rw [BucketTree.find] at hnew
    rw [BucketTree.replace]
    split
    · rename_i hbit
      rw [if_pos hbit] at hnew
      refine allBuckets_fork.2 ⟨hleft, ?_⟩
      have hpath := bitsTo_succ bit i depth
      rw [hbit] at hpath
      rw [← hpath] at hright ⊢
      exact ihright hright hnew
    · rename_i hbit
      rw [if_neg hbit] at hnew
      refine allBuckets_fork.2 ⟨?_, hright⟩
      have hpath := bitsTo_succ bit i depth
      rw [Bool.eq_false_iff.2 hbit] at hpath
      rw [← hpath] at hleft ⊢
      exact ihleft hleft hnew

theorem find_replace (t new : BucketTree α) (i : ι) (depth : ℕ) :
    (t.replace bit i new depth).find bit i depth = new.find bit i (t.find bit i depth).depth := by
  induction t generalizing depth with
  | bucket items closed => rfl
  | fork left right ihleft ihright =>
    by_cases hbit : bit i depth
    · rw [BucketTree.replace, BucketTree.find, if_pos hbit, if_pos hbit, BucketTree.find, if_pos hbit]
      exact ihright (depth + 1)
    · rw [BucketTree.replace, BucketTree.find, if_neg hbit, if_neg hbit, BucketTree.find,
        if_neg hbit]
      exact ihleft (depth + 1)

/-- **What is in the tree is what is in the bucket an index leads to, and a rest that
`replace` leaves as it is.** -/
theorem exists_rest (t : BucketTree α) (i : ι) (depth : ℕ) : ∃ rest : List α,
    t.items.Perm ((t.find bit i depth).items ++ rest) ∧
      ∀ new, (t.replace bit i new depth).items.Perm (new.items ++ rest) := by
  induction t generalizing depth with
  | bucket items closed =>
    refine ⟨[], ?_, fun new => ?_⟩
    · rw [List.append_nil]
      exact .refl _
    · rw [List.append_nil]
      exact .refl _
  | fork left right ihleft ihright =>
    by_cases hbit : bit i depth
    · obtain ⟨rest, hitems, hnew⟩ := ihright (depth + 1)
      refine ⟨rest ++ left.items, ?_, fun new => ?_⟩
      · rw [BucketTree.find, if_pos hbit, BucketTree.items, ← List.append_assoc]
        exact List.perm_append_comm.trans (hitems.append_right _)
      · rw [BucketTree.replace, if_pos hbit, BucketTree.items, ← List.append_assoc]
        exact List.perm_append_comm.trans ((hnew new).append_right _)
    · obtain ⟨rest, hitems, hnew⟩ := ihleft (depth + 1)
      refine ⟨rest ++ right.items, ?_, fun new => ?_⟩
      · rw [BucketTree.find, if_neg hbit, BucketTree.items, ← List.append_assoc]
        exact hitems.append_right _
      · rw [BucketTree.replace, if_neg hbit, BucketTree.items, ← List.append_assoc]
        exact (hnew new).append_right _

/-! ## Items where their keys lead -/

variable (key : α → ι)

/-- **Every item is where its key leads.** -/
def Placed : BucketTree α → List Bool → Prop :=
  AllBuckets fun path items _ => ∀ a ∈ items, bitsTo bit (key a) path.length = path

variable {bit key}

theorem Placed.bitsTo_eq {t : BucketTree α} (h : t.Placed bit key path) {a : α}
    (ha : a ∈ t.items) : bitsTo bit (key a) path.length = path := by
  induction t generalizing path with
  | bucket items closed => exact allBuckets_bucket.1 h a ha
  | fork left right ihleft ihright =>
    obtain ⟨hleft, hright⟩ := allBuckets_fork.1 h
    rcases List.mem_append.1 ha with ha | ha
    · have hpath := ihleft hleft ha
      rw [List.length_append, List.length_singleton, bitsTo_succ] at hpath
      exact (List.append_inj' hpath rfl).1
    · have hpath := ihright hright ha
      rw [List.length_append, List.length_singleton, bitsTo_succ] at hpath
      exact (List.append_inj' hpath rfl).1

theorem Placed.mem_find {t : BucketTree α} (h : t.Placed bit key path) {a : α} (ha : a ∈ t.items) :
    a ∈ (t.find bit (key a) path.length).items := by
  induction t generalizing path with
  | bucket items closed => exact ha
  | fork left right ihleft ihright =>
    obtain ⟨hleft, hright⟩ := allBuckets_fork.1 h
    -- the side the item is on is the bit its key has there
    have hside {t : BucketTree α} {b : Bool} (ht : t.Placed bit key (path ++ [b]))
        (ha : a ∈ t.items) : bit (key a) path.length = b := by
      have hpath := Placed.bitsTo_eq ht ha
      rw [List.length_append, List.length_singleton, bitsTo_succ] at hpath
      exact List.singleton_inj.1 (List.append_inj' hpath rfl).2
    rcases List.mem_append.1 ha with ha | ha
    · have hmem := ihleft hleft ha
      rw [List.length_append, List.length_singleton] at hmem
      rwa [BucketTree.find, if_neg (by rw [hside hleft ha]; exact Bool.false_ne_true)]
    · have hmem := ihright hright ha
      rw [List.length_append, List.length_singleton] at hmem
      rwa [BucketTree.find, if_pos (hside hright ha)]

end

end BucketTree

end TsEthereum
