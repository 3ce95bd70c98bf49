import PointsTo.Proofs.Inline.Moments

/-! Instances stand in rows. The blocks of an instance are added one behind another, and no later
splice moves or changes them, so a block is found by the first block of its instance. -/
namespace PointsTo

namespace Inliner

/-- The blocks of every instance stand one behind another. -/
def InRows (pts : List Point) : Prop :=
  ∀ (b : Nat) (a : Activation) (cs : List Activation), pts[b]? = some (.block a cs) →
    a.block ≤ b ∧ pts[b - a.block]? = some (.block { a with block := 0 } cs)

variable {inl : Inliner} {entry m : MethodId} {receiver : Option Var} {t : PointerTable}
  {pts : List Point} {site a : Activation} {callers cs : List Activation} {n b f : Nat}
  {st st' : Inlining} {stack : List PendingCall} {w : PendingCall} {inst : Instance}

theorem instancePoints_inRows : InRows (instancePoints m receiver n callers) := by
  intro b a cs hb
  obtain ⟨hlt, heq⟩ := instancePoints_cases hb
  cases heq
  refine ⟨Nat.le_refl b, ?_⟩
  rw [Nat.sub_self]
  exact getElem?_instancePoints (Nat.lt_of_le_of_lt (Nat.zero_le b) hlt)

theorem splicedPoints_inRows (h : InRows pts) :
    InRows (splicedPoints pts m receiver n site callers) := by
  intro b a cs hb
  rcases splicedPoints_cases hb with ⟨hlt, hp⟩ | ⟨i, hi, rfl, heq⟩ | ⟨-, heq⟩ | ⟨-, heq⟩
  · obtain ⟨hle, hfirst⟩ := h b a cs hp
    exact ⟨hle, (splicedPoints_old (by omega)).trans hfirst⟩
  · cases heq
    refine ⟨Nat.le_add_left i _, ?_⟩
    rw [Nat.add_sub_cancel]
    exact splicedPoints_block (Nat.lt_of_le_of_lt (Nat.zero_le i) hi)
  · cases heq
  · cases heq

/-- At every moment of inlining, the blocks stand for points in rows. -/
theorem Moment.rows (h : inl.Moment entry stack st) :
    ∀ t, st.table ≤ t → ∃ pts, Layout inl t st pts stack ∧ InRows pts := by
  induction h with
  | start hroot =>
    intro t ht
    obtain ⟨-, hl⟩ := start_layout hroot ht
    exact ⟨_, hl.perm (List.reverse_perm _).symm, instancePoints_inRows⟩
  | @turn w stack st inst st' _ hsplice ih =>
    intro t ht
    obtain ⟨pts, hl, hrows⟩ := ih t (PointerTable.le_trans (splice_spec hsplice).1 ht)
    obtain ⟨site, callers, hw⟩ := hl.waits w List.mem_cons_self
    have hl' := spliced_layout hl hw hsplice ht
    exact ⟨_, hl'.perm ((List.reverse_perm _).symm.append_right _), splicedPoints_inRows hrows⟩

/-- A block of an instance is found behind its first one. -/
theorem Layout.row (hl : Layout inl t st pts stack) (hrows : InRows pts)
    (hf : pts[f]? = some (.block { a with block := 0 } cs)) {k : Nat}
    (hk : k < (inl.blocksOf t a.method a.receiver).length) :
    pts[f + k]? = some (.block { a with block := k } cs) := by
  obtain ⟨b, hb⟩ := List.mem_iff_getElem?.1 ((hl.whole _ cs (List.mem_of_getElem? hf) k).2 hk)
  obtain ⟨hle, hfirst⟩ := hrows b _ cs hb
  have hlt := (List.getElem?_eq_some_iff.1 hf).1
  have hsame : f = b - k := (List.getElem?_inj hlt hl.distinct).1 (hf.trans hfirst.symm)
  rw [hsame, Nat.sub_add_cancel hle]
  exact hb

theorem splice_keeps (hd : st.draft.WellFormed) (h : inl.splice w st = .ok (inst, st'))
    {block : Block} (hb : st.draft.blocks[b]? = some block) :
    st'.draft.blocks[b]? = some block := by
  obtain ⟨-, -, -, hspec⟩ := splice_spec h
  obtain ⟨-, -, hdraft, -, -⟩ := hspec st'.table (PointerTable.le_refl _)
  obtain ⟨-, hsize, hblocks, -⟩ := addBlocks_spec w.callee w.depth
    (inl.blocksOf st'.table w.callee (receiverOf w.caller w.call)) hd
  have hlt : b < st.draft.size := (Array.getElem?_eq_some_iff.1 hb).1
  rw [hdraft, getElem?_wire, hsize, if_neg (by omega), if_neg (by omega), hblocks, if_pos hlt]
  exact hb

end Inliner

end PointsTo
