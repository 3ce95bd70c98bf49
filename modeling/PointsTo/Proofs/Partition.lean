import Mathlib.Data.Set.Card
import Mathlib.Logic.Relation
import Mathlib.Order.Interval.Finset.Nat
import PointsTo.Proofs.UnionFind

/-! Disjoint sets over whole histories. Whatever was called in whatever order, two elements are in
one set exactly if unions connect them, and as many sets are counted as there are. -/
namespace PointsTo

namespace UnionFind

inductive Operation where
  | grow (x : Nat)
  | find (x : Nat)
  | union (x y : Nat)
  deriving DecidableEq, Repr

def Operation.elements : Operation → List Nat
  | grow x | find x => [x]
  | union x y => [x, y]

def apply (u : UnionFind) : Operation → UnionFind
  | .grow x => u.growTo x
  | .find x => (u.find x).2
  | .union x y => (u.union x y).2

def run (u : UnionFind) (ops : List Operation) : UnionFind := ops.foldl apply u

def Joins (ops : List Operation) (x y : Nat) : Prop := .union x y ∈ ops

def Connected (ops : List Operation) : Nat → Nat → Prop := Relation.EqvGen (Joins ops)

def extent (n : Nat) (ops : List Operation) : Nat :=
  (ops.flatMap Operation.elements).foldl (fun n x => max n (x + 1)) n

def classesBelow (ops : List Operation) (n : Nat) : Set (Set Nat) :=
  (fun x => {y | Connected ops x y}) '' {x | x < n}

/-- The second loop of a search, with no bound on its rounds: the elements between `x` and `r` are
hung directly below `r`. -/
inductive Hangs (r : Nat) : Nat → Nat → Array Nat → Array Nat → Prop where
  | done {x parent} : parentOf parent x = r → Hangs r 0 x parent parent
  | round {n x parent parent'} : parentOf parent x ≠ r →
      Hangs r n (parentOf parent x) (parent.setIfInBounds x r) parent' →
        Hangs r (n + 1) x parent parent'

variable {u v : UnionFind} {ops : List Operation} {op : Operation} {n k x y r s extra : Nat}
  {parent parent' : Array Nat}

theorem compress_eq (h : Hangs r n x parent parent') (hn : n ≤ k) :
    compress r k x parent = parent' := by
  induction h generalizing k with
  | @done x parent hp =>
    cases k with
    | zero => rfl
    | succ k => exact if_pos hp
  | round hp _ ih =>
    cases k with
    | zero => omega
    | succ k =>
      rw [compress]
      exact (if_neg hp).trans (ih (by omega))

/-- The second loop takes no more rounds than the first one. -/
theorem WellFormed.hangs (h : u.WellFormed) (hx : x < u.size) (hr : Reaches u.parent r n x) :
    ∃ k ≤ n, ∃ parent', Hangs r k x u.parent parent' := by
  induction n using Nat.strong_induction_on generalizing u x with
  | h n ih =>
    by_cases hp : parentOf u.parent x = r
    · exact ⟨0, Nat.zero_le n, _, .done hp⟩
    · have hne : x ≠ r := by
        rintro rfl
        exact hp hr.is_root
      have hrank := (h.rank_le_of_reaches hr).resolve_left hne
      have hwf := h.hang hx (h.root_lt hr hx) hrank u.classes
      have hinside := h.inside x hx
      cases hr with
      | root hroot => exact absurd hroot hp
      | step hstep hrest =>
        obtain ⟨n', hn', hrest'⟩ := hrest.shortcut hx (.step hstep hrest) hne
        obtain ⟨k, hk, parent', hhangs⟩ :=
          ih n' (by omega) hwf (by simpa [size] using hinside) hrest'
        exact ⟨k + 1, by omega, parent', .round hp hhangs⟩

/-- Both loops of a search end within as many rounds as there are elements, with what it gives. -/
theorem WellFormed.loops_end (h : u.WellFormed) (x : Nat) :
    ∃ n ≤ (u.growTo x).size, Reaches (u.growTo x).parent (u.find x).1 n x ∧
      ∃ k ≤ n, Hangs (u.find x).1 k x (u.growTo x).parent (u.find x).2.parent := by
  obtain ⟨hwf, hsame, hx⟩ := growTo_spec h x
  obtain ⟨r, n, hn, hr⟩ := hwf.reaches x
  have hle : n ≤ (u.growTo x).size := hn.trans (above_le_size _ x)
  obtain ⟨k, hk, parent', hhangs⟩ := hwf.hangs hx hr
  have hfirst : (u.find x).1 = r := hwf.root_eq hr
  have hsecond : (u.find x).2.parent = parent' := by
    rw [← compress_eq hhangs (hk.trans hle), ← hfirst]
    rfl
  rw [hfirst, hsecond]
  exact ⟨n, hle, hr, k, hk, hhangs⟩

section Counting

def heads (u : UnionFind) : Finset Nat := (Finset.range u.size).filter fun r => u.root r = r

theorem mem_heads : r ∈ u.heads ↔ r < u.size ∧ u.root r = r := by
  rw [heads, Finset.mem_filter, Finset.mem_range]

theorem WellFormed.root_root (h : u.WellFormed) (x : Nat) : u.root (u.root x) = u.root x :=
  h.root_eq (.root (h.parent_root x))

theorem WellFormed.root_mem_heads (h : u.WellFormed) (hx : x < u.size) : u.root x ∈ u.heads :=
  mem_heads.2 ⟨h.root_lt_size hx, h.root_root x⟩

theorem WellFormed.roots_mem_heads (h : u.WellFormed) (x y : Nat) :
    u.root x ∈ (u.searched x y).heads ∧ u.root y ∈ (u.searched x y).heads := by
  obtain ⟨hwf, hsame, hsize⟩ := searched_spec h x y
  rw [size_growTo, size_growTo] at hsize
  rw [← hsame x, ← hsame y]
  exact ⟨hwf.root_mem_heads (by omega), hwf.root_mem_heads (by omega)⟩

theorem heads_of_sameRoots (hsame : u.SameRoots v) (hsize : v.size = u.size) :
    v.heads = u.heads := by
  ext r
  rw [mem_heads, mem_heads, hsame, hsize]

theorem card_heads_growTo (h : u.WellFormed) (x : Nat) :
    (u.growTo x).heads.card = u.heads.card + (x + 1 - u.size) := by
  obtain ⟨-, hsame, -⟩ := growTo_spec h x
  have hheads : (u.growTo x).heads =
      u.heads ∪ Finset.Ico u.size (u.size + (x + 1 - u.size)) := by
    ext r
    rw [mem_heads, hsame, size_growTo, Finset.mem_union, mem_heads, Finset.mem_Ico]
    constructor
    · rintro ⟨hr, hroot⟩
      by_cases hlt : r < u.size
      · exact Or.inl ⟨hlt, hroot⟩
      · exact Or.inr ⟨Nat.le_of_not_lt hlt, hr⟩
    · rintro (⟨hr, hroot⟩ | ⟨hle, hr⟩)
      · exact ⟨by omega, hroot⟩
      · exact ⟨hr, h.root_of_size_le hle⟩
  have hdisjoint : Disjoint u.heads (Finset.Ico u.size (u.size + (x + 1 - u.size))) := by
    refine Finset.disjoint_left.2 fun r hr hr' => ?_
    exact absurd (mem_heads.1 hr).1 (Nat.not_lt.2 (Finset.mem_Ico.1 hr').1)
  rw [hheads, Finset.card_union_of_disjoint hdisjoint, Nat.card_Ico, Nat.add_sub_cancel_left]

/-- A root that hangs below another one is no head any more. -/
theorem Links.heads (h : Links u v r s) (hne : r ≠ s) (hr : u.root r = r) (hs : u.root s = s) :
    v.heads = u.heads.erase r := by
  ext x
  rw [Finset.mem_erase, mem_heads, mem_heads, h.size, h.roots]
  by_cases hx : u.root x = r
  · rw [if_pos hx]
    constructor
    · rintro ⟨-, rfl⟩
      exact absurd (hx.symm.trans hs) hne
    · rintro ⟨hxr, -, hroot⟩
      exact absurd (hroot.symm.trans hx) hxr
  · rw [if_neg hx]
    have hxr : x ≠ r := by
      rintro rfl
      exact hx hr
    exact (and_iff_right hxr).symm

/-- Linking two heads takes one set away, so there was one to take. -/
theorem Links.counted (h : Links u v r s) (hne : r ≠ s) (hr : r ∈ u.heads) (hs : s ∈ u.heads)
    (hcount : u.classes = u.heads.card + extra) :
    v.classes = v.heads.card + extra ∧ v.classes + 1 = u.classes := by
  have hheads := h.heads hne (mem_heads.1 hr).2 (mem_heads.1 hs).2
  have hcard : v.heads.card = u.heads.card - 1 := by rw [hheads, Finset.card_erase_of_mem hr]
  have hpos : 0 < u.heads.card := Finset.card_pos.2 ⟨r, hr⟩
  have hclasses := h.classes
  omega

theorem Unites.roots {rx ry given : Nat} (h : Unites u rx ry given v) (hx : u.root x = rx)
    (hy : u.root y = ry) : v.root x = given ∧ v.root y = given := by
  cases h with
  | same heq => exact ⟨hx, hy.trans heq.symm⟩
  | left hne hlinks =>
    rw [hlinks.roots, hlinks.roots, hx, hy, if_neg hne, if_pos rfl]
    exact ⟨rfl, rfl⟩
  | right hne hlinks =>
    rw [hlinks.roots, hlinks.roots, hx, hy, if_pos rfl, if_neg (Ne.symm hne)]
    exact ⟨rfl, rfl⟩

theorem Unites.counted {rx ry given : Nat} (h : Unites u rx ry given v) (hx : rx ∈ u.heads)
    (hy : ry ∈ u.heads) (hcount : u.classes = u.heads.card + extra) :
    v.classes = v.heads.card + extra ∧ (rx ≠ ry → v.classes + 1 = u.classes) := by
  cases h with
  | same heq => exact ⟨hcount, fun hne => absurd heq hne⟩
  | left hne hlinks =>
    obtain ⟨hcounted, hless⟩ := hlinks.counted (Ne.symm hne) hy hx hcount
    exact ⟨hcounted, fun _ => hless⟩
  | right hne hlinks =>
    obtain ⟨hcounted, hless⟩ := hlinks.counted hne hx hy hcount
    exact ⟨hcounted, fun _ => hless⟩

end Counting

theorem joins_concat {a b : Nat} :
    Joins (ops ++ [op]) a b ↔ Joins ops a b ∨ op = .union a b := by
  rw [Joins, List.mem_append, List.mem_singleton]
  exact or_congr_right eq_comm

theorem connected_concat (hop : ∀ a b, op ≠ .union a b) :
    Connected (ops ++ [op]) = Connected ops := by
  have hjoins : Joins (ops ++ [op]) = Joins ops := by
    funext a b
    exact propext (joins_concat.trans (or_iff_left (hop a b)))
  rw [Connected, hjoins, Connected]

theorem Connected.mono (h : Connected ops x y) (op : Operation) :
    Connected (ops ++ [op]) x y :=
  Relation.EqvGen.mono (fun _ _ hab => joins_concat.2 (Or.inl hab)) _ _ h

/-- What both elements of every union share is shared by all that are connected. -/
theorem Connected.shares {α : Type} {f : Nat → α} (h : Connected ops x y)
    (hf : ∀ a b, Joins ops a b → f a = f b) : f x = f y :=
  (eq_equivalence.comap f).eqvGen_iff.1 (Relation.EqvGen.mono hf _ _ h)

theorem extent_concat (n : Nat) (ops : List Operation) (op : Operation) :
    extent n (ops ++ [op]) = op.elements.foldl (fun n x => max n (x + 1)) (extent n ops) := by
  rw [extent, extent, List.flatMap_append, List.foldl_append, List.flatMap_singleton]

/-- What holds after the calls `ops`, starting with `n` sets of one element each of which `extra`
more were counted. -/
structure Tracks (n extra : Nat) (ops : List Operation) (u : UnionFind) : Prop where
  wellFormed : u.WellFormed
  size : u.size = extent n ops
  roots : ∀ x y, u.root x = u.root y ↔ Connected ops x y
  counted : u.classes = u.heads.card + extra

namespace Tracks

theorem growTo (h : Tracks n extra ops u) (x : Nat) :
    Tracks n extra (ops ++ [.grow x]) (u.growTo x) := by
  obtain ⟨hwf, hsame, -⟩ := growTo_spec h.wellFormed x
  constructor
  case wellFormed => exact hwf
  case size =>
    rw [size_growTo, h.size, extent_concat]
    change _ = max (extent n ops) (x + 1)
    omega
  case roots =>
    intro a b
    rw [hsame, hsame, h.roots, connected_concat (by simp)]
  case counted =>
    rw [card_heads_growTo h.wellFormed, Nat.add_right_comm, ← h.counted]
    rfl

/-- A search adds the element that it looks for, and nothing else changes. -/
theorem find (h : Tracks n extra ops u) (x : Nat) :
    Tracks n extra (ops ++ [.find x]) (u.find x).2 := by
  have hgrown := h.growTo x
  obtain ⟨-, hwf, hsame, hsize⟩ := find_spec h.wellFormed x
  have hsame' : (u.growTo x).SameRoots (u.find x).2 :=
    fun y => (hsame y).trans ((growTo_spec h.wellFormed x).2.1 y).symm
  constructor
  case wellFormed => exact hwf
  case size => rw [hsize, hgrown.size, extent_concat, extent_concat]; rfl
  case roots =>
    intro a b
    rw [hsame, hsame, h.roots, connected_concat (by simp)]
  case counted =>
    rw [heads_of_sameRoots hsame' hsize, ← hgrown.counted]
    rfl

theorem searched (h : Tracks n extra ops u) (x y : Nat) :
    Tracks n extra (ops ++ [.find x] ++ [.find y]) (u.searched x y) :=
  (h.find x).find y

theorem union_counted (h : Tracks n extra ops u) (x y : Nat) :
    (u.union x y).2.classes = (u.union x y).2.heads.card + extra ∧
      (u.root x ≠ u.root y → (u.union x y).2.classes + 1 = (u.searched x y).classes) := by
  obtain ⟨hx, hy⟩ := h.wellFormed.roots_mem_heads x y
  exact (union_unites h.wellFormed x y).counted hx hy (h.searched x y).counted

/-- A union connects its two elements, and thereby their sets. -/
theorem union_roots (h : Tracks n extra ops u) (x y a b : Nat) :
    (u.union x y).2.root a = (u.union x y).2.root b ↔ Connected (ops ++ [.union x y]) a b := by
  have hspec := union_spec h.wellFormed x y
  have hold : ∀ c d, u.root c = u.root d → Connected (ops ++ [.union x y]) c d :=
    fun c d hcd => ((h.roots c d).1 hcd).mono _
  constructor
  · intro hab
    have hto : ∀ c, u.root c = u.root x ∨ u.root c = u.root y →
        Connected (ops ++ [.union x y]) c x := by
      have hyx : Connected (ops ++ [.union x y]) y x :=
        .symm _ _ (.rel _ _ (joins_concat.2 (Or.inr rfl)))
      rintro c (hc | hc)
      · exact hold c x hc
      · exact .trans _ _ _ (hold c y hc) hyx
    rcases hspec.cases hab with hsame | ⟨ha, hb⟩
    · exact hold a b hsame
    · exact .trans _ _ _ (hto a ha) (.symm _ _ (hto b hb))
  · intro hab
    refine hab.shares fun c d hcd => ?_
    rcases joins_concat.1 hcd with hcd | heq
    · exact hspec.keeps ((h.roots c d).2 (.rel _ _ hcd))
    · cases heq
      exact union_joins h.wellFormed x y

theorem union (h : Tracks n extra ops u) (x y : Nat) :
    Tracks n extra (ops ++ [.union x y]) (u.union x y).2 := by
  constructor
  case wellFormed => exact (union_spec h.wellFormed x y).wellFormed
  case size =>
    rw [size_union h.wellFormed, size_growTo, size_growTo, h.size, extent_concat]
    change _ = max (max (extent n ops) (x + 1)) (y + 1)
    omega
  case roots => exact h.union_roots x y
  case counted => exact (h.union_counted x y).1

end Tracks

/-- Every call does to the sets what it does to the connections. -/
theorem Tracks.apply (h : Tracks n extra ops u) (op : Operation) :
    Tracks n extra (ops ++ [op]) (u.apply op) := by
  cases op with
  | grow x => exact h.growTo x
  | find x => exact h.find x
  | union x y => exact h.union x y

theorem Tracks.run (h : Tracks n extra ops u) (later : List Operation) :
    Tracks n extra (ops ++ later) (u.run later) := by
  induction later generalizing ops u with
  | nil =>
    rw [List.append_nil]
    exact h
  | cons op later ih =>
    have hrest := ih (h.apply op)
    rwa [List.append_assoc, List.singleton_append] at hrest

theorem parentOf_singletons (n : Nat) : parentOf (singletons n).parent = id := by
  funext x
  rw [parentOf, singletons, Array.getD_eq_getD_getElem?, Array.getElem?_range]
  split <;> rfl

theorem singletons_wellFormed (n : Nat) : (singletons n).WellFormed := by
  constructor
  case ranks => simp [singletons]
  case inside =>
    intro x hx
    rwa [parentOf_singletons]
  case ascends =>
    intro x hne
    rw [parentOf_singletons] at hne
    exact absurd rfl hne

theorem singletons_track (n : Nat) :
    Tracks (n % 2 ^ 32) (n - n % 2 ^ 32) [] (singletons n) := by
  have hroot : ∀ x, (singletons n).root x = x := by
    intro x
    exact (singletons_wellFormed n).root_eq (.root (by rw [parentOf_singletons]; rfl))
  have hsize : (singletons n).size = n % 2 ^ 32 := by simp [singletons, size, UInt32.size]
  constructor
  case wellFormed => exact singletons_wellFormed n
  case size => exact hsize
  case roots =>
    intro x y
    rw [hroot, hroot]
    constructor
    · rintro rfl
      exact .refl x
    · exact fun hxy => hxy.shares (f := id) fun a b hab => absurd hab List.not_mem_nil
  case counted =>
    rw [heads, Finset.filter_true_of_mem fun x _ => hroot x, Finset.card_range, hsize]
    exact (Nat.add_sub_of_le (Nat.mod_le n _)).symm

theorem empty_track : Tracks 0 0 [] empty := singletons_track 0

theorem Tracks.card_heads (h : Tracks n extra ops u) :
    (classesBelow ops u.size).ncard = u.heads.card := by
  have hclass : ∀ x y, Connected ops x y →
      {z | Connected ops x z} = {z | Connected ops y z} := by
    intro x y hxy
    ext z
    exact ⟨fun hz => .trans _ _ _ (.symm _ _ hxy) hz, fun hz => .trans _ _ _ hxy hz⟩
  have himage : classesBelow ops u.size = (fun x => {y | Connected ops x y}) '' ↑u.heads := by
    ext c
    constructor
    · rintro ⟨x, hx, rfl⟩
      have hroot : Connected ops (u.root x) x := (h.roots _ _).1 (h.wellFormed.root_root x)
      exact ⟨u.root x, h.wellFormed.root_mem_heads hx, hclass _ _ hroot⟩
    · rintro ⟨x, hx, rfl⟩
      exact ⟨x, (mem_heads.1 hx).1, rfl⟩
  have hinj : Set.InjOn (fun x => {y | Connected ops x y}) ↑u.heads := by
    intro x hx y hy heq
    have hxy : Connected ops x y := by
      have hmem : y ∈ {z | Connected ops y z} := Relation.EqvGen.refl y
      rwa [← show {z | Connected ops x z} = {z | Connected ops y z} from heq] at hmem
    rw [← (mem_heads.1 hx).2, ← (mem_heads.1 hy).2]
    exact (h.roots x y).2 hxy
  rw [himage, hinj.ncard_image, Set.ncard_coe_finset]

/-- What searches and unions answer after the calls `ops`. -/
structure Separates (ops : List Operation) (u : UnionFind) : Prop where
  /-- The loops of a search need no bound: run without one, they end, and with what it gives. -/
  loops : ∀ x, ∃ k ≤ (u.growTo x).size, Reaches (u.growTo x).parent (u.find x).1 k x ∧
    ∃ j ≤ k, Hangs (u.find x).1 j x (u.growTo x).parent (u.find x).2.parent
  finds : ∀ x y, (u.find x).1 = ((u.find x).2.find y).1 ↔ Connected ops x y
  /-- Growing and searching change no later answer. -/
  keeps : ∀ x z, ((u.growTo z).find x).1 = (u.find x).1 ∧ ((u.find z).2.find x).1 = (u.find x).1
  /-- A union gives what is found for the elements of the joint class, and for no others. -/
  unions : ∀ x y z, ((u.union x y).2.find z).1 = (u.union x y).1 ↔
    Connected (ops ++ [.union x y]) x z
  /-- Where a union counts one class less, there was one more. -/
  counts : ∀ x y, ¬ Connected ops x y →
    (u.union x y).2.classes + 1 = ((u.find x).2.find y).2.classes

/-- What the sets answer after the calls `ops`, starting with `n` sets of one element each. -/
structure Partitions (n : Nat) (ops : List Operation) (u : UnionFind) : Prop
    extends Separates ops u where
  size : u.size = extent n ops
  classes : u.classes = (classesBelow ops u.size).ncard

theorem Tracks.separates (h : Tracks n extra ops u) : Separates ops u := by
  have hfind : ∀ {ops : List Operation} {u : UnionFind}, Tracks n extra ops u → ∀ x,
      (u.find x).1 = u.root x := fun h x => (find_spec h.wellFormed x).1
  constructor
  case loops => exact h.wellFormed.loops_end
  case finds =>
    intro x y
    obtain ⟨-, -, hsame, -⟩ := find_spec h.wellFormed x
    rw [hfind h, hfind (h.find x), hsame, h.roots]
  case keeps =>
    intro x z
    obtain ⟨-, -, hsame, -⟩ := find_spec h.wellFormed z
    obtain ⟨-, hgrown, -⟩ := growTo_spec h.wellFormed z
    rw [hfind h, hfind (h.find z), hfind (h.growTo z), hsame, hgrown]
    exact ⟨rfl, rfl⟩
  case unions =>
    intro x y z
    obtain ⟨-, hsame, -⟩ := searched_spec h.wellFormed x y
    have hgiven := ((union_unites h.wellFormed x y).roots (hsame x) (hsame y)).1
    rw [hfind (h.union x y), ← hgiven, ← (h.union x y).roots]
    exact eq_comm
  case counts =>
    intro x y hxy
    exact (h.union_counted x y).2 fun hroots => hxy ((h.roots x y).1 hroots)

theorem Tracks.classes (h : Tracks n extra ops u) :
    u.classes = (classesBelow ops u.size).ncard + extra := by
  rw [h.counted, h.card_heads]

theorem Tracks.partitions (h : Tracks n 0 ops u) : Partitions n ops u where
  toSeparates := h.separates
  size := h.size
  classes := h.classes

/-- After any calls in any order, the sets are the classes of the elements connected by unions. They
are counted right exactly if the elements to start with are words of 32 bits: from there on, as many
sets too many are counted as wrapped around. -/
theorem run_partitions (n : Nat) (ops : List Operation) :
    Separates ops ((singletons n).run ops) ∧
      ((singletons n).run ops).size = extent (n % 2 ^ 32) ops ∧
      ((singletons n).run ops).classes =
        (classesBelow ops ((singletons n).run ops).size).ncard + (n - n % 2 ^ 32) ∧
      (Partitions n ops ((singletons n).run ops) ↔ n < 2 ^ 32) ∧
      Partitions 0 ops (empty.run ops) := by
  have htracks : Tracks (n % 2 ^ 32) (n - n % 2 ^ 32) ops ((singletons n).run ops) :=
    (singletons_track n).run ops
  refine ⟨htracks.separates, htracks.size, htracks.classes, ⟨fun h => ?_, fun hn => ?_⟩,
    (empty_track.run ops).partitions⟩
  · have hcounted := htracks.classes.symm.trans h.classes
    have hlt := Nat.mod_lt n (Nat.two_pow_pos 32)
    omega
  · rw [Nat.mod_eq_of_lt hn, Nat.sub_self] at htracks
    exact htracks.partitions

example : (empty.run [.union 3 7, .find 1, .union 7 3]).classes = 7 := by
  decide +kernel

/-- The first number of sets that is too large leaves none of them, and all are counted. -/
theorem wrapped_singletons : (singletons (2 ^ 32)).size = 0 ∧
    (singletons (2 ^ 32)).classes = 2 ^ 32 ∧
    ((singletons (2 ^ 32)).run [.grow 0]).size = 1 ∧
    ((singletons (2 ^ 32)).run [.grow 0]).classes = 2 ^ 32 + 1 ∧
    ¬ Partitions (2 ^ 32) [.grow 0] ((singletons (2 ^ 32)).run [.grow 0]) := by
  have hsize : ((singletons (2 ^ 32)).run [.grow 0]).size = 1 := by decide +kernel
  refine ⟨by decide +kernel, rfl, hsize, by decide +kernel, fun h => ?_⟩
  have hextent : extent (2 ^ 32) [.grow 0] = 2 ^ 32 := by decide +kernel
  exact absurd (hsize.symm.trans (h.size.trans hextent)) (by decide)

end UnionFind

end PointsTo
