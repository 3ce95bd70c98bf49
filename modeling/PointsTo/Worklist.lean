/-! Queues whose ends are both cheap to reach. -/
namespace PointsTo

/-- First in, first out. The back is kept in reverse. -/
structure Worklist where
  front : List Nat
  back : List Nat
  deriving DecidableEq, Repr

namespace Worklist

def toList (w : Worklist) : List Nat := w.front ++ w.back.reverse

def ofList (xs : List Nat) : Worklist := ⟨xs, []⟩

def push (w : Worklist) (x : Nat) : Worklist := ⟨w.front, x :: w.back⟩

def pop? (w : Worklist) : Option (Nat × Worklist) :=
  match w.front with
  | x :: xs => some (x, ⟨xs, w.back⟩)
  | [] =>
    match w.back.reverse with
    | [] => none
    | x :: xs => some (x, ⟨xs, []⟩)

@[simp] theorem toList_ofList (xs : List Nat) : (ofList xs).toList = xs := by
  simp [ofList, toList]

@[simp] theorem toList_push (w : Worklist) (x : Nat) : (w.push x).toList = w.toList ++ [x] := by
  simp [push, toList]

theorem pop?_eq_none {w : Worklist} : w.pop? = none ↔ w.toList = [] := by
  unfold pop? toList
  split
  · simp [*]
  · split <;> simp_all

theorem pop?_eq_some {w v : Worklist} {x : Nat} (h : w.pop? = some (x, v)) :
    w.toList = x :: v.toList := by
  unfold pop? at h
  unfold toList
  split at h
  · cases h
    simp [*]
  · split at h <;> cases h
    simp_all

end Worklist

end PointsTo
