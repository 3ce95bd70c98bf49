import PointsTo.Proofs.Solver.LeastSolution
import PointsTo.Proofs.Solver.Splitting
import PointsTo.Proofs.Solver.Unassigned

/-! Solving the pieces instead of the blocks. Before every piece the seed is joined in once more. If
no copy assigns a seeded pointer, the copies before the piece have left all of the seed as it was,
so nothing is joined in that is not there. -/
namespace PointsTo

namespace Graph

variable {g : Graph} {seed : Facts} {F : Nat → Nat → Nat → Prop} {b i p l : Nat}

def Incoming (g : Graph) (seed : Facts) (F : Nat → Nat → Nat → Prop) (b p l : Nat) : Prop :=
  seed.Holds p l ∨ ∃ q ∈ g.predecessors b, F q p l

namespace Cut

variable {cut : g.Cut}

def upTo (cut : g.Cut) (b n : Nat) : List Copy := ((cut.pieces b).take n).flatten

theorem upTo_succ (hi : i < cut.count b) : cut.upTo b (i + 1) = cut.upTo b i ++ cut.piece b i := by
  have hget := List.getElem?_eq_getElem hi
  rw [upTo, upTo, List.take_add_one, hget, piece, List.getD_eq_getElem?_getD, hget]
  simp

theorem upTo_count (cut : g.Cut) (b : Nat) : cut.upTo b (cut.count b) = g.copiesOf b := by
  rw [upTo, count, List.take_length, cut.whole]

theorem mem_of_mem_upTo {c : Copy} {n : Nat} (hc : c ∈ cut.upTo b n) : c ∈ g.copiesOf b := by
  obtain ⟨piece, hpiece, hc⟩ := List.mem_flatten.1 hc
  rw [← cut.whole]
  exact List.mem_flatten.2 ⟨piece, List.mem_of_mem_take hpiece, hc⟩

theorem sourceOf_upTo_succ (hi : i < cut.count b) (p : Nat) :
    sourceOf (cut.upTo b (i + 1)) p = sourceOf (cut.upTo b i) (sourceOf (cut.piece b i) p) := by
  rw [upTo_succ hi, sourceOf_append]

theorem sourceOf_upTo_of_seeded (hseed : ∀ p l, seed.Holds p l → g.Unassigned p)
    (h : seed.Holds p l) (n : Nat) : sourceOf (cut.upTo b n) p = p :=
  sourceOf_of_not_target fun c hc => hseed p l h b c (mem_of_mem_upTo hc)

/-- What comes into the blocks, changed by the pieces up to a piece, is all that the pieces hand on
to each other. -/
theorem closed_incoming (hg : g.WellFormed) (hseed : ∀ p l, seed.Holds p l → g.Unassigned p)
    (hF : g.Closed seed F) : cut.graph.Closed seed fun k p l => ∀ b i, i < cut.count b →
      k = cut.first b + i → g.Incoming seed F b (sourceOf (cut.upTo b (i + 1)) p) l := by
  rintro k hk p l h b i hi rfl
  obtain ⟨b', hb, i', hi', hplace⟩ := exists_place (size_graph ▸ hk)
  obtain ⟨rfl, rfl⟩ := place_inj hi hi' hplace
  rw [sourceOf_upTo_succ hi]
  rw [copiesOf_graph hb hi, predecessors_graph hb hi] at h
  rcases h with hs | ⟨q, hq, hs⟩
  · rw [sourceOf_upTo_of_seeded hseed hs]
    exact Or.inl hs
  · rcases mem_prevs.1 hq with ⟨hne, rfl⟩ | ⟨rfl, c, hc, rfl⟩
    · obtain ⟨j, rfl⟩ := Nat.exists_eq_succ_of_ne_zero hne
      exact hs b j (Nat.lt_of_succ_lt hi) (by omega)
    · -- the block that control comes from has handed on what its last piece has
      have hcount := cut.count_pos c
      have hlast := hs c (cut.count c - 1) (by omega) rfl
      rw [Nat.sub_add_cancel hcount, upTo_count] at hlast
      have hinside := (hg.edge_inside c b ((hg.transpose c b).1 hc)).1
      exact Or.inr ⟨c, hc, hF c hinside _ l hlast⟩

theorem holds_of_prevs (hF : cut.graph.Closed seed F) (hb : b < g.size) (hi : i < cut.count b)
    (h : seed.Holds (sourceOf (cut.piece b i) p) l ∨
      ∃ q ∈ cut.prevs b i, F q (sourceOf (cut.piece b i) p) l) :
    F (cut.first b + i) p l := by
  have hk : cut.first b + i < cut.graph.size := by
    rw [size_graph]
    exact place_lt hb hi
  apply hF _ hk
  rwa [copiesOf_graph hb hi, predecessors_graph hb hi]

theorem holds_of_incoming (hF : cut.graph.Closed seed F) (hb : b < g.size) (hi : i < cut.count b)
    (h : g.Incoming seed (fun c => F (cut.last c)) b (sourceOf (cut.upTo b (i + 1)) p) l) :
    F (cut.first b + i) p l := by
  rw [sourceOf_upTo_succ hi] at h
  apply holds_of_prevs hF hb hi
  induction i generalizing p with
  | zero =>
    rcases h with hs | ⟨c, hc, hs⟩
    · exact Or.inl hs
    · exact Or.inr ⟨cut.last c, mem_prevs.2 (Or.inr ⟨rfl, c, hc, rfl⟩), hs⟩
  | succ i ih =>
    have hlt := Nat.lt_of_succ_lt hi
    rw [sourceOf_upTo_succ hlt] at h
    refine Or.inr ⟨cut.first b + i, mem_prevs.2 (Or.inl ⟨Nat.succ_ne_zero i, by omega⟩), ?_⟩
    exact holds_of_prevs hF hb hlt (ih hlt h)

theorem closed_last (hF : cut.graph.Closed seed F) :
    g.Closed seed fun b => F (cut.last b) := by
  intro b hb p l h
  have hcount := cut.count_pos b
  apply holds_of_incoming hF hb (show cut.count b - 1 < cut.count b by omega)
  rw [Nat.sub_add_cancel hcount, upTo_count]
  exact h

/-- If no copy assigns a seeded pointer, runs that converge find the same facts after a block and
after its last piece. -/
theorem factsAfter_last (cut : g.Cut) (hg : g.WellFormed)
    (hseed : ∀ p l, seed.Holds p l → g.Unassigned p) {budget budget' : Option Nat}
    (hc : (g.solve seed budget).converged = true)
    (hc' : (cut.graph.solve seed budget').converged = true) (hb : b < g.size) :
    (cut.graph.solve seed budget').factsAfter (cut.last b) =
      (g.solve seed budget).factsAfter b := by
  obtain ⟨hsolves, hleast⟩ := converged_spec hg hc
  obtain ⟨hsolves', hleast'⟩ := converged_spec (cut.graph_wellFormed hg) hc'
  have hcount := cut.count_pos b
  refine Facts.ext fun p l => ⟨fun h => ?_, fun h => ?_⟩
  · have hclosed := closed_of_solves hsolves
    have hin := hleast' _ (closed_incoming hg hseed hclosed) (cut.last b)
      (size_graph ▸ cut.last_lt hb) p l h b (cut.count b - 1) (by omega) rfl
    rw [Nat.sub_add_cancel hcount, upTo_count] at hin
    exact hclosed b hb p l hin
  · exact hleast _ (closed_last (closed_of_solves hsolves')) b hb p l h

end Cut

end Graph

end PointsTo
