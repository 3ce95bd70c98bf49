/-! Disjoint sets of numbers, with path compression and union by rank. Every number up to the
largest one mentioned is an element. -/
namespace PointsTo

structure UnionFind where
  /-- A root is its own parent. -/
  parent : Array Nat
  /-- Bounds the height of the tree below a root. -/
  rank : Array Nat
  /-- How many sets there are. -/
  classes : Nat
  deriving DecidableEq, Repr

namespace UnionFind

def empty : UnionFind := ⟨#[], #[], 0⟩

instance : Inhabited UnionFind := ⟨empty⟩

/-- The sets of one element each, below `n`. Elements are words of 32 bits, so they end where `n`
wraps around; the count does not. Ranks are only kept of elements, since no other is read. -/
def singletons (n : Nat) : UnionFind :=
  let size := n % UInt32.size
  ⟨.range size, .replicate size 0, n⟩

def size (u : UnionFind) : Nat := u.parent.size

def isEmpty (u : UnionFind) : Bool := u.parent.isEmpty

/-- Adds the missing elements up to `x`, each as a set of its own. -/
def growTo (u : UnionFind) (x : Nat) : UnionFind :=
  let missing := x + 1 - u.size
  ⟨u.parent ++ (Array.range missing).map (u.size + ·), u.rank ++ Array.replicate missing 0,
    u.classes + missing⟩

/-- Follows at most `steps` parents. -/
def climb (parent : Array Nat) : Nat → Nat → Nat
  | 0, x => x
  | steps + 1, x =>
    let p := parent.getD x x
    if p = x then x else climb parent steps p

/-- The root above an element. A tree is not higher than it has elements. -/
def root (u : UnionFind) (x : Nat) : Nat := climb u.parent u.size x

/-- Hangs the elements between `x` and `root` directly below `root`. -/
def compress (root : Nat) : Nat → Nat → Array Nat → Array Nat
  | 0, _, parent => parent
  | steps + 1, x, parent =>
    let p := parent.getD x x
    if p = root then parent else compress root steps p (parent.setIfInBounds x root)

def find (u : UnionFind) (x : Nat) : Nat × UnionFind :=
  let u := u.growTo x
  let r := u.root x
  (r, { u with parent := compress r u.size x u.parent })

/-- Joins two sets below the root of higher rank, or the first root; gives the joint root. -/
def union (u : UnionFind) (x y : Nat) : Nat × UnionFind :=
  let (rx, u) := u.find x
  let (ry, u) := u.find y
  if rx = ry then (rx, u)
  else
    let classes := u.classes - 1
    let kx := u.rank.getD rx 0
    let ky := u.rank.getD ry 0
    if kx < ky then (ry, { u with parent := u.parent.setIfInBounds rx ry, classes })
    else if ky < kx then (rx, { u with parent := u.parent.setIfInBounds ry rx, classes })
    else (rx, ⟨u.parent.setIfInBounds ry rx, u.rank.setIfInBounds rx (kx + 1), classes⟩)

end UnionFind

end PointsTo
