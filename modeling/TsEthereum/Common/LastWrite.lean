import Mathlib.Data.List.Basic
import Mathlib.Logic.Function.Basic

/-!
# The last write

Writes one after the other leave at every key the value written there last, or
what was there. `latest` reads it off the writes alone, so that what many of
them leave follows from what each of them does.
-/

namespace TsEthereum

universe u v

variable {κ : Type u} {ν : Type v} [DecidableEq κ]

/-- **The value written last** at a key. -/
def latest : List (κ × ν) → κ → Option ν
  | [], _ => none
  | w :: writes, k => (latest writes k).or (if k = w.1 then some w.2 else none)

@[simp] theorem latest_nil (k : κ) : latest ([] : List (κ × ν)) k = none := rfl

theorem latest_append (writes writes' : List (κ × ν)) (k : κ) :
    latest (writes ++ writes') k = (latest writes' k).or (latest writes k) := by
  induction writes with
  | nil => exact (Option.or_none ..).symm
  | cons w writes ih => rw [List.cons_append, latest, ih, latest, Option.or_assoc]

theorem getD_latest_append (writes writes' : List (κ × ν)) (k : κ) (v : ν) :
    (latest (writes ++ writes') k).getD v = (latest writes' k).getD ((latest writes k).getD v) := by
  rw [latest_append]
  cases latest writes' k <;> rfl

theorem getD_latest_singleton (k' : κ) (v' : ν) (k : κ) (v : ν) :
    (latest [(k', v')] k).getD v = if k = k' then v' else v := by
  rw [latest, latest_nil, Option.none_or]
  split <;> rfl

end TsEthereum
