import TsEthereum.Common.Except
import Mathlib.Logic.Function.Basic

/-!
# A stack of maps

What a store with nested checkpoints is for, without its representation:
the map in force, and under it the one each open checkpoint was made at.
Opening a checkpoint copies the map in force, committing one keeps it and
forgets the copy, reverting one goes back to the copy.
-/

namespace TsEthereum

/-- **The map in force and the saved ones**, innermost first. -/
structure MapStack (κ ν : Type*) where
  top : κ → Option ν
  saved : List (κ → Option ν)

namespace MapStack

variable {κ ν ε : Type*}

/-- A change of the map in force. -/
def modify (s : MapStack κ ν) (f : (κ → Option ν) → κ → Option ν) : MapStack κ ν :=
  { s with top := f s.top }

/-- Opens a checkpoint. -/
def checkpoint (s : MapStack κ ν) : MapStack κ ν := ⟨s.top, s.top :: s.saved⟩

/-- Closes a checkpoint and keeps its changes; `e` when none is open. -/
def commit (e : ε) (s : MapStack κ ν) : Except ε (MapStack κ ν) :=
  match s.saved with
  | [] => .error e
  | _ :: saved => .ok ⟨s.top, saved⟩

/-- Closes a checkpoint and undoes its changes; `e` when none is open. -/
def revert (e : ε) (s : MapStack κ ν) : Except ε (MapStack κ ν) :=
  match s.saved with
  | [] => .error e
  | m :: saved => .ok ⟨m, saved⟩

end MapStack

end TsEthereum
