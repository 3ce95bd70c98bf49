import PointsTo.Proofs.Construction
import PointsTo.Proofs.Solver.Walks

/-! Ways out of a method. A block counts as an exit when it has no successor. A branch at the end of
a body may go on in the method or fall off the end: its block has a successor, and that way out is
lost. -/
namespace PointsTo

/-- Behind statement `x` control can be out of the method. -/
inductive MayLeave (stmts : List Stmt) (x : Nat) : Prop where
  | ret {value} : stmts[x]? = some (.ret value) → MayLeave stmts x
  | off {s} : stmts[x]? = some s → (∀ targets, s ≠ .goto targets) → x + 1 = stmts.length →
      MayLeave stmts x

def BranchesInside (stmts : List Stmt) (x : Nat) : Prop :=
  ∃ targets, stmts[x]? = some (.branch targets) ∧ ∃ y ∈ targets, y < stmts.length

/-- From where control can leave, it goes on to another statement only by a branch. -/
theorem MayLeave.branchesInside {stmts : List Stmt} {x y : Nat} (h : MayLeave stmts x)
    (hstep : StepsTo stmts x y) : BranchesInside stmts x := by
  cases hstep with
  | branch hs htarget hlt => exact ⟨_, hs, y, htarget, hlt⟩
  | goto hs htarget hlt =>
    cases h with
    | ret hs' => cases hs.symm.trans hs'
    | off hs' hgoto hend =>
      cases hs.symm.trans hs'
      exact absurd rfl (hgoto _)
  | next hs hgoto hret hlt =>
    cases h with
    | ret hs' =>
      cases hs.symm.trans hs'
      exact absurd rfl (hret _)
    | off hs' hgoto hend => omega

section

variable {h : Recognizer} {m : MethodId} {stmts : List Stmt} {receiver : Option Var}
  {t : PointerTable} {j : Nat} {lb : LocalBlock}

theorem isExit_iff (hlb : (methodBlocks h m stmts receiver t).1[j]? = some lb)
    (hleave : MayLeave stmts lb.last) : lb.isExit = true ↔ ¬ BranchesInside stmts lb.last := by
  rw [LocalBlock.isExit, OrderedSet.isEmpty, List.isEmpty_iff]
  constructor
  · rintro hnil ⟨targets, hs, y, hy, hlt⟩
    -- a target within the method starts a block, which is a successor
    obtain ⟨k, hk, -⟩ := jump_block hlb hs hy hlt
    change k ∈ lb.succs.toList at hk
    rw [hnil] at hk
    cases hk
  · intro hinside
    refine List.eq_nil_iff_forall_not_mem.2 fun k hk => hinside ?_
    obtain ⟨next, -, hstep⟩ := (mem_succs_iff_stepsTo hlb k).1 hk
    exact hleave.branchesInside hstep

/-- Of the blocks that control can leave by, those are exits that end with no branch into the
method. -/
theorem mem_exitsOf_iff (hlb : (methodBlocks h m stmts receiver t).1[j]? = some lb)
    (hleave : MayLeave stmts lb.last) :
    j ∈ exitsOf (methodBlocks h m stmts receiver t).1 ↔
      ¬ BranchesInside stmts lb.last := by
  rw [Inliner.mem_exitsOf, ← isExit_iff hlb hleave]
  constructor
  · rintro ⟨lb', hlb', hexit⟩
    cases hlb.symm.trans hlb'
    exact hexit
  · intro hexit
    exact ⟨lb, hlb, hexit⟩

end

namespace Inliner

variable {inl : Inliner} {t : PointerTable} {a : Activation} {cs callers : List Activation}
  {site : Activation} {lb : LocalBlock}

/-- Where the machine is when the call of a block, if it follows one, is over. -/
def behind (inl : Inliner) (t : PointerTable) (a : Activation) (cs : List Activation) : Point :=
  if (inl.entered t a cs).isSome then .leave a cs else .block a cs

theorem next_behind : inl.next t (inl.behind t a cs) = inl.afterwards t a cs := by
  unfold behind
  split
  · rfl
  · next hnot => rw [next, if_neg hnot]

theorem leave_mem_afterwards (hlb : inl.blockAt t a = some lb) :
    .leave site callers ∈ inl.afterwards t a (site :: callers) ↔ lb.isExit = true := by
  have hsuccs : inl.succsAt t a = lb.succs.toList := by
    rw [succsAt, hlb, Option.elim_some]
  rw [mem_afterwards, hsuccs, LocalBlock.isExit, OrderedSet.isEmpty, List.isEmpty_iff]
  constructor
  · rintro (⟨j, -, hblock⟩ | ⟨hnil, -⟩)
    · cases hblock
    · exact hnil
  · intro hnil
    exact Or.inr ⟨hnil, site, callers, rfl, rfl⟩

end Inliner

namespace Analysis

open Inliner

variable {a : Analysis} {entry : MethodId} {i : Inlined} {c : Construction} {pts : List Point}
  {act : Activation} {cs : List Activation}

/-- Around every call that is followed, the blocks of the whole callee are in the graph. -/
theorem EdgesAreSteps.block_of_enter (h : a.EdgesAreSteps entry i c pts) {n j : Nat}
    {site : Activation} {callers : List Activation} {call : Call} {callee : MethodId}
    (hn : pts[n]? = some (.enter site callers))
    (he : a.inliner.entered i.table site callers = some (call, callee))
    (hj : j < (a.inliner.blocksOf i.table callee (receiverOf site.method call)).length) :
    ∃ b : Nat,
      pts[b]? = some (.block ⟨callee, receiverOf site.method call, j⟩ (site :: callers)) := by
  have hnext : .block ⟨callee, receiverOf site.method call, 0⟩ (site :: callers) ∈
      a.inliner.next i.table (.enter site callers) := by
    rw [next, he]
    exact List.mem_singleton_self _
  obtain ⟨k, -, hk⟩ := (h.edge n _ hn _).1 hnext
  exact List.mem_iff_getElem?.1 ((h.whole _ _ (List.mem_of_getElem? hk) j).2 hj)

theorem EdgesAreSteps.behind_of_block (h : a.EdgesAreSteps entry i c pts) {b : Nat}
    (hb : pts[b]? = some (.block act cs)) :
    ∃ e : Nat, pts[e]? = some (a.inliner.behind i.table act cs) := by
  unfold behind
  split
  · next hentered =>
    have hnext : .enter act cs ∈ a.inliner.next i.table (.block act cs) := by
      rw [next, if_pos hentered]
      exact List.mem_singleton_self _
    obtain ⟨k, -, hk⟩ := (h.edge b _ hb _).1 hnext
    exact List.mem_iff_getElem?.1 (h.returns act cs (List.mem_of_getElem? hk))
  · exact ⟨b, hb⟩

theorem EdgesAreSteps.mem_successors_iff (h : a.EdgesAreSteps entry i c pts) {b k : Nat}
    {p q : Point} (hb : pts[b]? = some p) (hk : pts[k]? = some q) :
    k ∈ c.graph.successors b ↔ q ∈ a.inliner.next i.table p := by
  rw [h.edge b p hb]
  constructor
  · intro hsucc
    exact ⟨k, hsucc, hk⟩
  · rintro ⟨k', hsucc, hk'⟩
    have hlt := (List.getElem?_eq_some_iff.1 hk).1
    rwa [(List.getElem?_inj hlt h.distinct).1 (hk.trans hk'.symm)]

/-- Exits are the blocks that control can leave by, but for those that end with a branch into the
method. Where a callee is entered, just these blocks lead to the block behind the call, each on its
own or from behind the call it ends with, and what leaves there flows on. -/
theorem exits_lead_back {main : Method} (hv : a.resolver.Valid a.program)
    (hm : a.program.method? entry = some main) (hs : main.stmts ≠ []) :
    (∀ h m stmts receiver t j lb, (methodBlocks h m stmts receiver t).1[j]? = some lb →
      MayLeave stmts lb.last → (j ∈ exitsOf (methodBlocks h m stmts receiver t).1 ↔
        ¬ BranchesInside stmts lb.last)) ∧
    ∃ i c pts, a.inliner.run entry = .ok (some i) ∧ a.complete i = .ok c ∧
      a.EdgesAreSteps entry i c pts ∧
      ∀ (n : Nat) site callers, pts[n]? = some (.enter site callers) →
        ∃ call callee, ∃ r : Nat, a.inliner.entered i.table site callers = some (call, callee) ∧
          pts[r]? = some (.leave site callers) ∧
          ∀ j lb, (a.inliner.blocksOf i.table callee (receiverOf site.method call))[j]? = some lb →
            let act : Activation := ⟨callee, receiverOf site.method call, j⟩
            ∃ b e : Nat, pts[b]? = some (.block act (site :: callers)) ∧
              pts[e]? = some (a.inliner.behind i.table act (site :: callers)) ∧
              (MayLeave (a.inliner.stmtsOf callee) lb.last → (r ∈ c.graph.successors e ↔
                ¬ BranchesInside (a.inliner.stmtsOf callee) lb.last)) ∧
              (r ∈ c.graph.successors e → ∀ k ∈ c.graph.successors r, ∀ seed budget,
                (c.graph.solve seed budget).converged = true →
                  (((c.graph.solve seed budget).factsAfter e).run (c.graph.copiesOf r)).run
                    (c.graph.copiesOf k) ⊆ (c.graph.solve seed budget).factsAfter k) := by
  refine ⟨fun h m stmts receiver t j lb => mem_exitsOf_iff, ?_⟩
  obtain ⟨i, c, hrun, hc, pts, fieldsAt, hsteps, -⟩ := built hv hm hs
  refine ⟨i, c, pts, hrun, hc, hsteps, fun n site callers hn => ?_⟩
  obtain ⟨call, callee, -, he, -⟩ := hsteps.entered_of_call hn (Or.inl rfl)
  have hreturns := hsteps.returns site callers (List.mem_of_getElem? hn)
  obtain ⟨r, hr⟩ := List.mem_iff_getElem?.1 hreturns
  refine ⟨call, callee, r, he, hr, fun j lb hlb => ?_⟩
  intro act
  have hat : a.inliner.blockAt i.table act = some lb := hlb
  obtain ⟨b, hb⟩ := hsteps.block_of_enter hn he (List.getElem?_eq_some_iff.1 hlb).1
  obtain ⟨e, hbehind⟩ := hsteps.behind_of_block hb
  refine ⟨b, e, hb, hbehind, fun hleave => ?_, fun hsucc k hk seed budget hconv => ?_⟩
  · rw [hsteps.mem_successors_iff hbehind hr, next_behind, leave_mem_afterwards hat]
    exact isExit_iff hlb hleave
  · have hsolves := (converged_spec hsteps.wellFormed hconv).1
    have hfirst := edge_subset_of_solves hsteps.wellFormed hsolves hsucc
    have hlast := edge_subset_of_solves hsteps.wellFormed hsolves hk
    exact OrderedSet.subset_trans (Facts.run_subset_run hfirst _) hlast

def spin : Method :=
  ⟨"A", "spin", "", true, false, none, [], ["x"], [.branch [2], .ret none, .new 0 "B", .branch [2]]⟩

def spinning : Analysis :=
  .of ⟨[], [
    ⟨"Main", "main", "", true, false, none, [], ["a"], [.new 0 "A",
      .call ⟨none, ⟨"A", "spin", ""⟩, [], none⟩, .ret none]⟩,
    spin], none⟩ .default

theorem spinning_exits_lead_back :
    MayLeave spin.stmts 1 ∧ ¬ BranchesInside spin.stmts 1 ∧
    1 ∈ exitsOf (methodBlocks spinning.hooks 1 spin.stmts none ∅).1 ∧
    ∃ i c pts, spinning.inliner.run 0 = .ok (some i) ∧ spinning.complete i = .ok c ∧
      spinning.EdgesAreSteps 0 i c pts ∧
      ∀ (n : Nat) site callers, pts[n]? = some (.enter site callers) →
        ∃ call callee, ∃ r : Nat, spinning.inliner.entered i.table site callers =
            some (call, callee) ∧ pts[r]? = some (.leave site callers) ∧
          ∀ (j : Nat) lb, (spinning.inliner.blocksOf i.table callee
              (receiverOf site.method call))[j]? = some lb →
            ∃ e, MayLeave (spinning.inliner.stmtsOf callee) lb.last →
              (r ∈ c.graph.successors e ↔
                ¬ BranchesInside (spinning.inliner.stmtsOf callee) lb.last) := by
  obtain ⟨hexits, i, c, pts, hrun, hc, hsteps, henter⟩ :=
    @exits_lead_back spinning 0 _ (hierarchy_valid _) rfl (by decide)
  have hleave : MayLeave spin.stmts 1 := .ret rfl
  have hinside : ¬ BranchesInside spin.stmts 1 := by
    rintro ⟨targets, hs, -⟩
    cases hs
  refine ⟨hleave, hinside, ?_, i, c, pts, hrun, hc, hsteps, fun n site callers hn => ?_⟩
  · exact (hexits spinning.hooks 1 spin.stmts none ∅ 1 ⟨1, 1, [], ∅, none, none⟩ rfl hleave).2
      hinside
  · obtain ⟨call, callee, r, he, hr, hblocks⟩ := henter n site callers hn
    refine ⟨call, callee, r, he, hr, fun j lb hlb => ?_⟩
    obtain ⟨b, e, -, -, hleads, -⟩ := hblocks j lb hlb
    exact ⟨e, hleads⟩

/-- The allocation before the branch at the end is not seen behind the call. -/
theorem branching_exit_lost :
    MayLeave spin.stmts 3 ∧ spinning.program.method? 1 = some spin ∧
      (methodBlocks spinning.hooks 1 spin.stmts none ∅).1[2]?.map (·.last) = some 3 ∧
      2 ∉ exitsOf (methodBlocks spinning.hooks 1 spin.stmts none ∅).1 ∧
      ∃ c, spinning.constructFrom 0 = .ok c ∧
        c.graph.blocks[4]?.map (·.kind) = some (.body 1 2 3 1) ∧
        c.graph.blocks[6]?.map (·.kind) = some (.leave 1 1) ∧ c.graph.successors 4 = .ofList [4] ∧
        ((c.graph.solve (.ofList [⟨3, 0⟩]) none).factsAfter 4).Holds 2 0 ∧
        ¬ ((c.graph.solve (.ofList [⟨3, 0⟩]) none).factsAfter 1).Holds 2 0 := by
  refine ⟨.off rfl (fun _ => nofun) rfl, rfl, by decide +kernel, by decide +kernel, ?_⟩
  exact exists_ok (by decide +kernel)

end Analysis

end PointsTo
