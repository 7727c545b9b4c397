import TsEthereum.Common.RadixTree.Basic

/-!
# The way down a radix tree

A descent records what it passes: an extension's path, or a branch and the
letter it took. `Frames.plug` puts a subtree back where the descent stands,
so an update below is an update of the whole tree: `lookup_plug_update` for
any change of one key, `insert_plug` for `insert`. `rejoin` puts a subtree
back and joins it with an extension right above, which is how a collapsed
branch returns to its parent.

The innermost frame stands first.
-/

namespace TsEthereum

universe u v

namespace RadixTree

variable {α : Type u} {ν : Type v}

/-- One step down: past an extension's path, or to the child of a branch. -/
inductive Frame (α : Type u) (ν : Type v) where
  | extension (path : List α)
  | branch (children : α → RadixTree α ν) (value : Option ν) (letter : α)

/-- The part of the key a step takes. -/
def Frame.path : Frame α ν → List α
  | extension p => p
  | branch _ _ a => [a]

/-- The key of the place a descent stands at. -/
def Frames.path : List (Frame α ν) → List α
  | [] => []
  | f :: fs => path fs ++ f.path

@[simp] theorem Frames.path_nil : path ([] : List (Frame α ν)) = [] := rfl

@[simp] theorem Frames.path_cons (f : Frame α ν) (fs : List (Frame α ν)) :
    path (f :: fs) = path fs ++ f.path := rfl

theorem Frames.path_append (gs fs : List (Frame α ν)) : path (gs ++ fs) = path fs ++ path gs := by
  induction gs with
  | nil => simp
  | cons f gs ih => rw [List.cons_append, path_cons, path_cons, ih, List.append_assoc]

variable [DecidableEq α]

/-- The node the step leaves, with `t` where the step leads. -/
def Frame.plug : Frame α ν → RadixTree α ν → RadixTree α ν
  | extension p, t => .extension p t
  | branch cs v a, t => .branch (Function.update cs a t) v

namespace Frames

/-- **The tree with `t` where the descent stands.** -/
def plug : List (Frame α ν) → RadixTree α ν → RadixTree α ν
  | [], t => t
  | f :: fs, t => plug fs (f.plug t)

/-- **The tree with `t` put back**, joined with an extension above it. -/
def rejoin : List (Frame α ν) → RadixTree α ν → RadixTree α ν
  | .extension p :: fs, t => plug fs (t.prepend p)
  | fs, t => plug fs t

@[simp] theorem plug_nil (t : RadixTree α ν) : plug [] t = t := rfl

@[simp] theorem plug_cons (f : Frame α ν) (fs : List (Frame α ν)) (t : RadixTree α ν) :
    plug (f :: fs) t = plug fs (f.plug t) := rfl

theorem plug_append (gs fs : List (Frame α ν)) (t : RadixTree α ν) :
    plug (gs ++ fs) t = plug fs (plug gs t) := by
  induction gs generalizing t with
  | nil => rfl
  | cons f gs ih => exact ih (f.plug t)

end Frames

open Frames

theorem lookup_framePlug_append (f : Frame α ν) (t : RadixTree α ν) (k : List α) :
    (f.plug t).lookup (f.path ++ k) = t.lookup k := by
  cases f with
  | extension p => simp [Frame.plug, Frame.path]
  | branch cs v a => simp [Frame.plug, Frame.path]

theorem lookup_plug_append (fs : List (Frame α ν)) (t : RadixTree α ν) (k : List α) :
    (plug fs t).lookup (path fs ++ k) = t.lookup k := by
  induction fs generalizing t k with
  | nil => rfl
  | cons f fs ih => rw [path_cons, plug_cons, List.append_assoc, ih, lookup_framePlug_append]

theorem lookup_framePlug_update {f : Frame α ν} {t t' : RadixTree α ν} {k : List α} {o : Option ν}
    (h : t'.lookup = Function.update t.lookup k o) :
    (f.plug t').lookup = Function.update (f.plug t).lookup (f.path ++ k) o := by
  funext x
  rw [Function.update_apply]
  cases f with
  | extension p =>
    simp only [Frame.plug, Frame.path, lookup_extension, h]
    cases hx : x.dropPrefix? p with
    | none =>
      have hne : x ≠ p ++ k := by
        rintro rfl
        simp at hx
      simp [hne]
    | some r =>
      obtain rfl := dropPrefix?_eq_some.1 hx
      simp [Function.update_apply]
  | branch cs v a =>
    simp only [Frame.plug, Frame.path]
    cases x with
    | nil => simp
    | cons b x =>
      rcases eq_or_ne b a with rfl | hb
      · simp [h, Function.update_apply]
      · simp [hb]

theorem lookup_plug_update (fs : List (Frame α ν)) {t t' : RadixTree α ν} {k : List α}
    {o : Option ν} (h : t'.lookup = Function.update t.lookup k o) :
    (plug fs t').lookup = Function.update (plug fs t).lookup (path fs ++ k) o := by
  induction fs generalizing t t' k with
  | nil => exact h
  | cons f fs ih =>
    rw [path_cons, List.append_assoc]
    exact ih (lookup_framePlug_update h)

theorem lookup_plug_congr (fs : List (Frame α ν)) {t t' : RadixTree α ν} (h : t'.lookup = t.lookup) :
    (plug fs t').lookup = (plug fs t).lookup := by
  have hself : t'.lookup = Function.update t.lookup [] (t.lookup []) := by
    rw [h, Function.update_eq_self]
  rw [lookup_plug_update fs hself, List.append_nil]
  refine Function.update_eq_self_iff.2 ?_
  rw [← lookup_plug_append fs t [], List.append_nil]

theorem lookup_rejoin (fs : List (Frame α ν)) (t : RadixTree α ν) :
    (rejoin fs t).lookup = (plug fs t).lookup := by
  cases fs with
  | nil => rfl
  | cons f fs =>
    cases f with
    | branch cs v a => rfl
    | extension p =>
      refine lookup_plug_congr fs (funext fun x => ?_)
      rw [lookup_prepend, Frame.plug, lookup_extension]

theorem insert_framePlug (f : Frame α ν) (t : RadixTree α ν) (k : List α) (v : ν) :
    (f.plug t).insert (f.path ++ k) v = f.plug (t.insert k v) := by
  cases f with
  | extension p => simp [Frame.plug, Frame.path, insert]
  | branch cs w a => simp [Frame.plug, Frame.path, insert]

theorem insert_plug (fs : List (Frame α ν)) (t : RadixTree α ν) (k : List α) (v : ν) :
    (plug fs t).insert (path fs ++ k) v = plug fs (t.insert k v) := by
  induction fs generalizing t k with
  | nil => rfl
  | cons f fs ih => rw [path_cons, plug_cons, List.append_assoc, ih, insert_framePlug, plug_cons]

end RadixTree

end TsEthereum
