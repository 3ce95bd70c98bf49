import PointsTo.Proofs.Graph

/-! Graphs whose blocks are cut into chains of smaller ones. Edges between blocks lead from the last
piece of one to the first piece of the other. -/
namespace PointsTo

instance : Inhabited Block := ⟨⟨0, .body 0 0 0 0, [], none⟩⟩

namespace Graph

/-- How every block is cut into pieces, each with a part of its copies. -/
structure Cut (g : Graph) where
  pieces : Nat → List (List Copy)
  nonempty : ∀ b, pieces b ≠ []
  whole : ∀ b, (pieces b).flatten = g.copiesOf b

namespace Cut

variable {g : Graph} {α : Type}

section Layout

variable (cut : g.Cut)

def count (b : Nat) : Nat := (cut.pieces b).length

def piece (b i : Nat) : List Copy := (cut.pieces b).getD i []

def first : Nat → Nat
  | 0 => 0
  | b + 1 => first b + cut.count b

def last (b : Nat) : Nat := cut.first b + (cut.count b - 1)

def lay (f : Nat → Nat → α) : Nat → List α
  | 0 => []
  | n + 1 => lay f n ++ (List.range (cut.count n)).map (f n)

/-- The mark of a block stays with its last piece. -/
def block (b i : Nat) : Block :=
  let whole := g.blocks.getD b default
  { whole with
    id := cut.first b + i
    copies := cut.piece b i
    mark := if i + 1 = cut.count b then whole.mark else none }

def nexts (b i : Nat) : OrderedSet Nat :=
  if i + 1 = cut.count b then .ofList ((g.successors b).toList.map cut.first)
  else .ofList [cut.first b + i + 1]

def prevs (b i : Nat) : OrderedSet Nat :=
  if i = 0 then .ofList ((g.predecessors b).toList.map cut.last)
  else .ofList [cut.first b + i - 1]

def graph : Graph where
  blocks := (cut.lay cut.block g.size).toArray
  succs := (cut.lay cut.nexts g.size).toArray
  preds := (cut.lay cut.prevs g.size).toArray
  entry := cut.first g.entry
  exits := .ofList (g.exits.toList.map cut.last)

end Layout

def singles (g : Graph) : g.Cut where
  pieces b := if g.copiesOf b = [] then [[]] else (g.copiesOf b).map fun c => [c]
  nonempty b := by
    by_cases hb : g.copiesOf b = []
    · simp [hb]
    · simp [hb]
  whole b := by
    by_cases hb : g.copiesOf b = []
    · simp [hb]
    · rw [if_neg hb, ← List.flatMap_def]
      exact List.flatMap_singleton' _

def Fine (cut : g.Cut) : Prop := ∀ b, ∀ piece ∈ cut.pieces b, piece.length ≤ 1

theorem singles_fine (g : Graph) : (singles g).Fine := by
  intro b piece hpiece
  change piece ∈ (if g.copiesOf b = [] then [[]] else (g.copiesOf b).map fun c => [c]) at hpiece
  by_cases hb : g.copiesOf b = []
  · rw [if_pos hb, List.mem_singleton] at hpiece
    simp [hpiece]
  · rw [if_neg hb] at hpiece
    obtain ⟨c, -, rfl⟩ := List.mem_map.1 hpiece
    simp

variable {cut : g.Cut} {b c i j k n : Nat}

theorem count_pos (cut : g.Cut) (b : Nat) : 0 < cut.count b :=
  List.length_pos_iff.2 (cut.nonempty b)

theorem first_le (cut : g.Cut) (h : b ≤ c) : cut.first b ≤ cut.first c := by
  induction h with
  | refl => exact Nat.le_refl _
  | step _ ih => exact Nat.le_trans ih (Nat.le_add_right _ _)

theorem place_lt (hb : b < n) (hi : i < cut.count b) : cut.first b + i < cut.first n := by
  have hle := cut.first_le (show b + 1 ≤ n from hb)
  change cut.first b + cut.count b ≤ cut.first n at hle
  omega

theorem last_lt (cut : g.Cut) (hb : b < n) : cut.last b < cut.first n := by
  have hcount := cut.count_pos b
  exact place_lt hb (show cut.count b - 1 < cut.count b by omega)

theorem exists_place (hk : k < cut.first n) :
    ∃ b < n, ∃ i < cut.count b, k = cut.first b + i := by
  induction n with
  | zero => exact absurd hk (Nat.not_lt_zero k)
  | succ n ih =>
    by_cases hlt : k < cut.first n
    · obtain ⟨b, hb, i, hi, rfl⟩ := ih hlt
      exact ⟨b, Nat.lt_succ_of_lt hb, i, hi, rfl⟩
    · change k < cut.first n + cut.count n at hk
      exact ⟨n, Nat.lt_succ_self n, k - cut.first n, by omega, by omega⟩

theorem place_inj (hi : i < cut.count b) (hj : j < cut.count c)
    (h : cut.first b + i = cut.first c + j) : b = c ∧ i = j := by
  rcases Nat.lt_trichotomy b c with hlt | rfl | hlt
  · have := place_lt hlt hi
    omega
  · exact ⟨rfl, by omega⟩
  · have := place_lt hlt hj
    omega

theorem length_lay (f : Nat → Nat → α) (n : Nat) : (cut.lay f n).length = cut.first n := by
  induction n with
  | zero => rfl
  | succ n ih => rw [lay, List.length_append, ih, List.length_map, List.length_range, first]

theorem getElem?_lay (f : Nat → Nat → α) (hb : b < n) (hi : i < cut.count b) :
    (cut.lay f n)[cut.first b + i]? = some (f b i) := by
  induction n with
  | zero => exact absurd hb (Nat.not_lt_zero b)
  | succ n ih =>
    rw [lay]
    by_cases hlt : b < n
    · have hplace := place_lt hlt hi
      rw [List.getElem?_append_left (by rwa [length_lay])]
      exact ih hlt
    · obtain rfl : b = n := by omega
      rw [List.getElem?_append_right (by rw [length_lay]; omega), length_lay,
        Nat.add_sub_cancel_left]
      simp [hi]

section Lookups

variable (hb : b < g.size) (hi : i < cut.count b)

theorem size_graph : cut.graph.size = cut.first g.size := by
  change (cut.lay cut.block g.size).toArray.size = _
  rw [List.size_toArray, length_lay]

include hb hi

theorem block_graph : cut.graph.blocks[cut.first b + i]? = some (cut.block b i) := by
  change (cut.lay cut.block g.size).toArray[_]? = _
  rw [List.getElem?_toArray, getElem?_lay _ hb hi]

theorem copiesOf_graph : cut.graph.copiesOf (cut.first b + i) = cut.piece b i := by
  rw [copiesOf, block_graph hb hi]
  rfl

theorem successors_graph : cut.graph.successors (cut.first b + i) = cut.nexts b i := by
  rw [successors, Array.getD_eq_getD_getElem?]
  change ((cut.lay cut.nexts g.size).toArray[_]?).getD _ = _
  rw [List.getElem?_toArray, getElem?_lay _ hb hi, Option.getD_some]

theorem predecessors_graph : cut.graph.predecessors (cut.first b + i) = cut.prevs b i := by
  rw [predecessors, Array.getD_eq_getD_getElem?]
  change ((cut.lay cut.prevs g.size).toArray[_]?).getD _ = _
  rw [List.getElem?_toArray, getElem?_lay _ hb hi, Option.getD_some]

end Lookups

theorem mem_nexts : k ∈ cut.nexts b i ↔
    (i + 1 ≠ cut.count b ∧ k = cut.first b + i + 1) ∨
      (i + 1 = cut.count b ∧ ∃ c ∈ g.successors b, k = cut.first c) := by
  rw [nexts]
  by_cases h : i + 1 = cut.count b
  · simp only [h, if_true, OrderedSet.mem_ofList, List.mem_map, ← OrderedSet.mem_def]
    simp [eq_comm]
  · simp [h, OrderedSet.mem_ofList]

theorem mem_prevs : k ∈ cut.prevs b i ↔
    (i ≠ 0 ∧ k = cut.first b + i - 1) ∨ (i = 0 ∧ ∃ c ∈ g.predecessors b, k = cut.last c) := by
  rw [prevs]
  by_cases h : i = 0
  · simp only [h, if_true, OrderedSet.mem_ofList, List.mem_map, ← OrderedSet.mem_def]
    simp [eq_comm]
  · simp [h, OrderedSet.mem_ofList]

theorem exists_place_of_mem_successors (h : k ∈ cut.graph.successors j) :
    ∃ b < g.size, ∃ i < cut.count b, j = cut.first b + i ∧ k ∈ cut.nexts b i := by
  have hj : j < cut.first g.size := by
    by_contra hge
    rw [successors, Array.getD_eq_getD_getElem?, Array.getElem?_eq_none] at h
    · exact OrderedSet.not_mem_empty k h
    · change (cut.lay cut.nexts g.size).toArray.size ≤ j
      rw [List.size_toArray, length_lay]
      exact Nat.le_of_not_lt hge
  obtain ⟨b, hb, i, hi, rfl⟩ := exists_place hj
  rw [successors_graph hb hi] at h
  exact ⟨b, hb, i, hi, rfl, h⟩

theorem exists_place_of_mem_predecessors (h : j ∈ cut.graph.predecessors k) :
    ∃ b < g.size, ∃ i < cut.count b, k = cut.first b + i ∧ j ∈ cut.prevs b i := by
  have hk : k < cut.first g.size := by
    by_contra hge
    rw [predecessors, Array.getD_eq_getD_getElem?, Array.getElem?_eq_none] at h
    · exact OrderedSet.not_mem_empty j h
    · change (cut.lay cut.prevs g.size).toArray.size ≤ k
      rw [List.size_toArray, length_lay]
      exact Nat.le_of_not_lt hge
  obtain ⟨b, hb, i, hi, rfl⟩ := exists_place hk
  rw [predecessors_graph hb hi] at h
  exact ⟨b, hb, i, hi, rfl, h⟩

theorem graph_wellFormed (cut : g.Cut) (hg : g.WellFormed) : cut.graph.WellFormed := by
  constructor
  case edge_inside =>
    intro j k hedge
    obtain ⟨b, hb, i, hi, rfl, hnext⟩ := exists_place_of_mem_successors hedge
    rw [size_graph]
    refine ⟨place_lt hb hi, ?_⟩
    rcases mem_nexts.1 hnext with ⟨hne, rfl⟩ | ⟨-, c, hc, rfl⟩
    · exact place_lt hb (show i + 1 < cut.count b by omega)
    · exact place_lt (hg.edge_inside b c hc).2 (cut.count_pos c)
  case transpose =>
    intro j k
    constructor
    · intro hback
      obtain ⟨c, hc, i, hi, rfl, hprev⟩ := exists_place_of_mem_predecessors hback
      rcases mem_prevs.1 hprev with ⟨hne, rfl⟩ | ⟨rfl, b, hb, rfl⟩
      · have hplace : cut.first c + i - 1 = cut.first c + (i - 1) := by omega
        rw [hplace, successors_graph hc (by omega), mem_nexts]
        exact Or.inl ⟨by omega, by omega⟩
      · have hedge := (hg.transpose b c).1 hb
        have hpos := cut.count_pos b
        rw [last, successors_graph (hg.edge_inside b c hedge).1 (by omega), mem_nexts]
        exact Or.inr ⟨by omega, c, hedge, by omega⟩
    · intro hedge
      obtain ⟨b, hb, i, hi, rfl, hnext⟩ := exists_place_of_mem_successors hedge
      rcases mem_nexts.1 hnext with ⟨hne, rfl⟩ | ⟨heq, c, hc, rfl⟩
      · rw [Nat.add_assoc, predecessors_graph hb (by omega), mem_prevs]
        exact Or.inl ⟨by omega, by omega⟩
      · rw [← Nat.add_zero (cut.first c),
          predecessors_graph (hg.edge_inside b c hc).2 (cut.count_pos c), mem_prevs]
        refine Or.inr ⟨rfl, b, (hg.transpose b c).2 hc, ?_⟩
        rw [last]
        omega

theorem marks_pieces (cut : g.Cut) (b : Nat) :
    (List.range (cut.count b)).filterMap
        (fun i => (cut.block b i).mark.map ((cut.block b i).id, ·)) =
      [b].filterMap fun b => (g.blocks.getD b default).mark.map (cut.last b, ·) := by
  obtain ⟨m, hm⟩ := Nat.exists_eq_succ_of_ne_zero (Nat.ne_of_gt (cut.count_pos b))
  have hinner : (List.range m).filterMap
      (fun i => (cut.block b i).mark.map ((cut.block b i).id, ·)) = [] := by
    refine List.filterMap_eq_nil_iff.2 fun i hi => ?_
    have hne : i + 1 ≠ cut.count b := by
      have := List.mem_range.1 hi
      omega
    have hmark : (cut.block b i).mark = none := if_neg hne
    rw [hmark, Option.map_none]
  have hmark : (cut.block b m).mark = (g.blocks.getD b default).mark := if_pos hm.symm
  have hid : (cut.block b m).id = cut.last b := by
    rw [last, hm]
    rfl
  rw [hm, List.range_succ, List.filterMap_append, hinner, List.nil_append]
  simp only [List.filterMap_cons, List.filterMap_nil, hmark, hid]

theorem marks_lay (cut : g.Cut) (n : Nat) :
    (cut.lay cut.block n).filterMap (fun b => b.mark.map (b.id, ·)) =
      (List.range n).filterMap fun b => (g.blocks.getD b default).mark.map (cut.last b, ·) := by
  induction n with
  | zero => rfl
  | succ n ih =>
    have hpieces := cut.marks_pieces n
    rw [lay, List.filterMap_append, ih, List.filterMap_map, List.range_succ,
      List.filterMap_append]
    exact congrArg _ hpieces

/-- The marked pieces are the last pieces of the marked blocks. -/
theorem testPoints_graph (cut : g.Cut)
    (hids : ∀ (b : Nat) (block : Block), g.blocks[b]? = some block → block.id = b) :
    cut.graph.testPoints = g.testPoints.map fun (b, mark) => (cut.last b, mark) := by
  have hblocks : g.blocks.toList = (List.range g.size).map fun b => g.blocks.getD b default := by
    refine List.ext_getElem (by simp [Graph.size]) fun b hb hb' => ?_
    have hlt : b < g.blocks.size := by simpa using hb
    simp [Array.getD_eq_getD_getElem?, hlt]
  have htests : g.testPoints = (List.range g.size).filterMap fun b =>
      (g.blocks.getD b default).mark.map (b, ·) := by
    rw [testPoints, hblocks, List.filterMap_map]
    refine List.filterMap_congr fun b hb => ?_
    have hget := Array.getElem?_eq_getElem (show b < g.blocks.size from List.mem_range.1 hb)
    have hid := hids b _ hget
    rw [Function.comp_apply, Array.getD_eq_getD_getElem?, hget, Option.getD_some, hid]
  have hlaid : cut.graph.testPoints =
      (cut.lay cut.block g.size).filterMap fun b => b.mark.map (b.id, ·) := by
    change (cut.lay cut.block g.size).toArray.toList.filterMap _ = _
    rw [List.toList_toArray]
  rw [hlaid, marks_lay, htests, List.map_filterMap]
  refine List.filterMap_congr fun b _ => ?_
  cases (g.blocks.getD b default).mark <;> rfl

end Cut

end Graph

end PointsTo
