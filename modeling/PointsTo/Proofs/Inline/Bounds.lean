import Mathlib.Algebra.Order.BigOperators.Group.List
import Mathlib.Algebra.Ring.GeomSum
import Mathlib.Data.Multiset.DershowitzManna
import Mathlib.Order.Bounds.Basic
import PointsTo.Proofs.Inline.Census

/-! Inlining ends, whatever methods call each other. A call is replaced by calls that lie one level
deeper, so the levels left to the waiting calls get smaller as a multiset, and the instances are the
nodes of a tree whose height and whose branching are bounded. -/
namespace PointsTo

theorem segments_lasts {n : Nat} {starts : List Nat} (hs : starts.Pairwise (· < ·))
    (hn : ∀ x ∈ starts, x < n) : ((segments n starts).map Prod.snd).Pairwise (· < ·) ∧
      ∀ x ∈ (segments n starts).map Prod.snd, x < n ∧ ∀ y ∈ starts.head?, y ≤ x := by
  fun_induction segments n starts with
  | case1 => exact ⟨.nil, List.forall_mem_nil _⟩
  | case2 start =>
    have := hn start List.mem_cons_self
    refine ⟨List.pairwise_singleton _ _, ?_⟩
    simp
    omega
  | case3 start next starts ih =>
    obtain ⟨hfirst, hs⟩ := List.pairwise_cons.1 hs
    obtain ⟨hlasts, hrange⟩ := ih hs fun x hx => hn x (List.mem_cons_of_mem start hx)
    have hlt := hfirst next List.mem_cons_self
    have hnext := hn next (List.mem_cons_of_mem start List.mem_cons_self)
    rw [List.map_cons]
    constructor
    · refine List.pairwise_cons.2 ⟨fun x hx => ?_, hlasts⟩
      have := (hrange x hx).2 next rfl
      change next - 1 < x
      omega
    · rintro x hx
      rcases List.mem_cons.1 hx with rfl | hx
      · refine ⟨by change next - 1 < n; omega, ?_⟩
        rintro y ⟨⟩
        change start ≤ next - 1
        omega
      · obtain ⟨hx, hge⟩ := hrange x hx
        refine ⟨hx, ?_⟩
        rintro y ⟨⟩
        have := hge next rfl
        omega

theorem lasts_subperm (h : Recognizer) (stmts : List Stmt) :
    ((segments stmts.length (blockStarts h stmts).toList).map Prod.snd).Subperm
      (List.range stmts.length) := by
  have hsorted : (blockStarts h stmts).toList.Pairwise (· < ·) :=
    (blockStarts h stmts).ascending.imp Nat.compare_eq_lt.1
  obtain ⟨hlasts, hrange⟩ := segments_lasts hsorted fun x hx => (mem_blockStarts.1 hx).1
  refine List.subperm_of_subset (hlasts.imp Nat.ne_of_lt) fun x hx => ?_
  exact List.mem_range.2 (hrange x hx).1

namespace Inliner

variable {inl : Inliner} {m : MethodId} {receiver : Option Var} {callers : List Activation}
  {entry : MethodId} {i : Inlined}

section Loop

variable {stack : List PendingCall} {st st' : Inlining}

inductive Turn (inl : Inliner) : List PendingCall × Inlining → List PendingCall × Inlining → Prop
    where
  | splice {w inst stack st st'} : inl.splice w st = .ok (inst, st') →
      Turn inl (w :: stack, st) (inst.calls.reverse ++ stack, st')

def levels (inl : Inliner) (stack : List PendingCall) : Multiset Nat :=
  (stack.map fun w => inl.maxDepth - w.depth : List Nat)

theorem levels_append (calls stack : List PendingCall) :
    inl.levels (calls ++ stack) = inl.levels calls + inl.levels stack := by
  rw [levels, List.map_append, ← Multiset.coe_add]
  rfl

/-- A call gives way to calls with fewer levels left. -/
theorem Turn.levels_lt {s s' : List PendingCall × Inlining} (h : inl.Turn s s') :
    (inl.levels s'.1).IsDershowitzMannaLT (inl.levels s.1) := by
  cases h with
  | @splice w inst stack st st' hsplice =>
    refine ⟨inl.levels stack, inl.levels inst.calls.reverse, {inl.maxDepth - w.depth}, ?_, ?_, ?_,
      ?_⟩
    · exact Multiset.singleton_ne_zero _
    · rw [levels_append, add_comm]
    · exact (levels_append [w] stack).trans (add_comm _ _)
    · intro y hy
      obtain ⟨v, hv, rfl⟩ := List.mem_map.1 (Multiset.mem_coe.1 hy)
      have := spliced_depth hsplice v (List.mem_reverse.1 hv)
      exact ⟨_, Multiset.mem_singleton_self _, by omega⟩

/-- The loop ends from every state, with calls of any depths on the stack. -/
theorem turn_wellFounded (inl : Inliner) : WellFounded fun s s' => inl.Turn s' s :=
  Subrelation.wf (fun h => Turn.levels_lt h)
    (InvImage.wf (fun s : List PendingCall × Inlining => inl.levels s.1)
      Multiset.wellFounded_isDershowitzMannaLT)

theorem drains_iff_turns : inl.Drains stack st st' ↔
    Relation.ReflTransGen inl.Turn (stack, st) ([], st') := by
  constructor
  · intro h
    induction h with
    | done => exact .refl
    | turn hsplice _ ih => exact .head (.splice hsplice) ih
  · intro h
    generalize hs : (stack, st) = s at h
    induction h using Relation.ReflTransGen.head_induction_on generalizing stack st with
    | refl =>
      cases hs
      exact .done
    | head hturn _ ih =>
      cases hturn with
      | splice hsplice =>
        cases hs
        exact .turn hsplice (ih rfl)

end Loop

section FanOut

def followable (inl : Inliner) : Stmt → Bool
  | .call c => (inl.hooks c).isNone && (inl.callee? c).isSome
  | _ => false

def fanOut (inl : Inliner) : Nat :=
  (inl.program.methods.map fun method => method.stmts.countP inl.followable).foldr max 0

theorem le_foldr_max {xs : List Nat} {x : Nat} (hx : x ∈ xs) : x ≤ xs.foldr max 0 := by
  induction xs with
  | nil => cases hx
  | cons y ys ih =>
    rcases List.mem_cons.1 hx with rfl | hx
    · exact Nat.le_max_left _ _
    · exact Nat.le_trans (ih hx) (Nat.le_max_right _ _)

theorem countP_le_fanOut (m : MethodId) : (inl.stmtsOf m).countP inl.followable ≤ inl.fanOut := by
  rw [stmtsOf]
  cases hm : inl.program.method? m with
  | none => exact Nat.zero_le _
  | some method => exact le_foldr_max (List.mem_map.2 ⟨method, List.mem_of_getElem? hm, rfl⟩)

theorem length_followedCalls_le :
    (inl.followedCalls m receiver callers).length ≤ (inl.stmtsOf m).countP inl.followable := by
  let segs := segments (inl.stmtsOf m).length (blockStarts inl.hooks (inl.stmtsOf m)).toList
  let calls := fun x : Nat => (inl.stmtsOf m)[x]?.any inl.followable
  have hlength : (inl.namedBlocksOf m receiver).length = segs.length := by
    rw [namedBlocksOf, namedBlocks, List.length_map, List.length_zipIdx]
  have hfollowed : ∀ x, (inl.followed ⟨m, receiver, x⟩ callers).isSome = true →
      segs[x]?.any (fun seg => calls seg.2) = true := by
    intro x hx
    obtain ⟨⟨c, callee⟩, hf⟩ := Option.isSome_iff_exists.1 hx
    obtain ⟨-, hcall, hcallee⟩ := followed_eq_some.1 hf
    have hcall : inl.callOf (.block ⟨m, receiver, x⟩ callers) = some c := hcall
    obtain ⟨first, last, hseg, hs, hhook⟩ := callOf_block.1 hcall
    have hseg : segs[x]? = some (first, last) := hseg
    rw [hseg, Option.any_some]
    change (inl.stmtsOf m)[last]?.any inl.followable = true
    rw [show (inl.stmtsOf m)[last]? = _ from hs]
    simp [followable, hhook, hcallee]
  calc (inl.followedCalls m receiver callers).length
      = (List.range segs.length).countP
          fun x => (inl.followed ⟨m, receiver, x⟩ callers).isSome := by
        rw [followedCalls, List.length_filterMap_eq_countP, activations, List.countP_map, hlength]
        simp only [Function.comp_def, Option.isSome_map]
    _ ≤ (List.range segs.length).countP fun x => segs[x]?.any fun seg => calls seg.2 :=
        List.countP_mono_left fun x _ => hfollowed x
    _ = (segs.map Prod.snd).countP calls := by
        rw [countP_range_getElem?, List.countP_map]
        rfl
    _ ≤ (List.range (inl.stmtsOf m).length).countP calls :=
        (lasts_subperm inl.hooks (inl.stmtsOf m)).countP_le _
    _ = (inl.stmtsOf m).countP inl.followable := countP_range_getElem? _ _

/-- The instances are the nodes of a tree, which is no higher than the limit and in which no node
has more branches than a method has calls. -/
theorem instances_le : (inl.graphOf m receiver callers).stats.instances ≤
    ∑ d ∈ Finset.range (inl.maxDepth - callers.length + 1), inl.fanOut ^ d := by
  induction m, receiver, callers using @graphOf_induction inl with
  | step m receiver callers ih =>
    rw [instances_graphOf]
    rcases Nat.lt_or_ge callers.length inl.maxDepth with hd | hd
    · obtain ⟨n, hn⟩ := Nat.exists_eq_add_of_lt hd
      have hbranch : ∀ x ∈ (inl.followedCalls m receiver callers).map fun f =>
          (inl.graphOf f.2.2 (receiverOf m f.2.1) (f.1 :: callers)).stats.instances,
          x ≤ ∑ d ∈ Finset.range (n + 1), inl.fanOut ^ d := by
        intro x hx
        obtain ⟨⟨a, c, callee⟩, hf, rfl⟩ := List.mem_map.1 hx
        have hlevel : inl.maxDepth - (a :: callers).length + 1 = n + 1 := by
          rw [List.length_cons]
          omega
        exact hlevel ▸ ih a c callee hf
      have hsum := List.sum_le_card_nsmul _ _ hbranch
      rw [List.length_map, nsmul_eq_mul, Nat.cast_id] at hsum
      have hcalls : (inl.followedCalls m receiver callers).length ≤ inl.fanOut :=
        Nat.le_trans length_followedCalls_le (countP_le_fanOut m)
      have hlevel : inl.maxDepth - callers.length + 1 = n + 1 + 1 := by omega
      rw [hlevel, geom_sum_succ, Nat.add_comm 1]
      exact Nat.add_le_add_right
        (Nat.le_trans hsum (Nat.mul_le_mul_right _ hcalls)) 1
    · have hnone : inl.followedCalls m receiver callers = [] := by
        refine List.eq_nil_iff_forall_not_mem.2 fun f hf => ?_
        have := (followed_eq_some.1 (mem_followedCalls.1 hf).2).1
        omega
      simp [hnone, Nat.sub_eq_zero_of_le hd]

end FanOut

/-- The loop works off the calls of the entry method, and what it leaves behind is bounded. A block
that starts with the first statement of its method stands for an instance. -/
structure Bounded (inl : Inliner) (entry : MethodId) (i : Inlined) : Prop where
  ends : ∃ root st st', inl.instantiate entry none 0 (.start ∅) = .ok (root, st) ∧
    Relation.ReflTransGen inl.Turn (root.calls.reverse, st) ([], st') ∧
      i.draft = st'.draft ∧ i.stats = st'.stats
  depth : ∀ b kind, i.kindAt b = some kind → kind.depth ≤ inl.maxDepth
  deepest : IsGreatest {d | ∃ b m first last, i.kindAt b = some (.body m first last d)}
    i.stats.maxDepth
  counted : {b | ∃ m last d, i.kindAt b = some (.body m 0 last d)}.ncard = i.stats.instances
  instances : i.stats.instances ≤ ∑ d ∈ Finset.range (inl.maxDepth + 1), inl.fanOut ^ d

section CountsPoints

variable {pts : List Point}

theorem CountsPoints.deepest (h : inl.CountsPoints entry i pts) :
    IsGreatest {d | ∃ b m first last, i.kindAt b = some (.body m first last d)}
      i.stats.maxDepth := by
  have hbody : ∀ b a cs, pts[b]? = some (.block a cs) →
      ∃ m first last, i.kindAt b = some (.body m first last cs.length) := by
    intro b a cs hb
    obtain ⟨block, -, hfor⟩ := h.block_at hb
    obtain ⟨lb, hlb, -⟩ := Option.map_eq_some_iff.1 hfor
    exact ⟨_, _, _, h.kindAt_body.2 ⟨a, cs, lb, hb, hlb, rfl, rfl, rfl, rfl⟩⟩
  have hstart := List.mem_of_getElem? h.start
  rw [h.stats]
  constructor
  · have hne : pts.map inl.census ≠ [] := by
      intro hnil
      rw [List.map_eq_nil_iff.1 hnil] at hstart
      cases hstart
    obtain ⟨s, hs, hmax⟩ := InlineStats.exists_maxDepth_sum hne
    obtain ⟨p, hp, rfl⟩ := List.mem_map.1 hs
    rw [Set.mem_ofPred_eq, ← hmax]
    -- the blocks around callees count for nothing here, and the entry lies at depth zero
    cases p with
    | block a cs =>
      obtain ⟨b, hb⟩ := List.mem_iff_getElem?.1 hp
      exact ⟨b, hbody b a cs hb⟩
    | enter a cs => exact ⟨0, hbody 0 _ _ h.start⟩
    | leave a cs => exact ⟨0, hbody 0 _ _ h.start⟩
  · rintro d ⟨b, m, first, last, hb⟩
    obtain ⟨a, cs, lb, hp, -, -, -, -, rfl⟩ := h.kindAt_body.1 hb
    exact InlineStats.le_maxDepth_sum
      (List.mem_map.2 ⟨_, List.mem_of_getElem? hp, rfl⟩ : inl.census (.block a cs) ∈ _)

theorem CountsPoints.counted (h : inl.CountsPoints entry i pts) :
    {b | ∃ m last d, i.kindAt b = some (.body m 0 last d)}.ncard = i.stats.instances := by
  rw [h.stats, (inl.census_counts pts).1]
  apply ncard_eq_countP
  · rintro b ⟨m, last, d, hb⟩
    obtain ⟨a, cs, lb, hp, -⟩ := h.kindAt_body.1 hb
    exact (List.getElem?_eq_some_iff.1 hp).1
  · intro b p hp
    constructor
    · rintro ⟨m, last, d, hb⟩
      obtain ⟨a, cs, lb, hp', hlb, -, hfirst, -⟩ := h.kindAt_body.1 hb
      cases hp.symm.trans hp'
      refine decide_eq_true (by_contra fun hne => ?_)
      have := first_pos (blockAt_eq_some hlb) hne
      omega
    · intro hfirst
      cases p with
      | block a cs =>
        obtain ⟨block, -, hfor⟩ := h.block_at hp
        obtain ⟨lb, hlb, -⟩ := Option.map_eq_some_iff.1 hfor
        have hzero := blockAt_eq_some hlb
        rw [of_decide_eq_true hfirst] at hzero
        exact ⟨_, _, _, h.kindAt_body.2 ⟨a, cs, lb, hp, hlb, rfl, first_of_zero hzero, rfl, rfl⟩⟩
      | enter a cs => cases hfirst
      | leave a cs => cases hfirst

end CountsPoints

theorem bounded_of_run (h : inl.run entry = .ok (some i)) : inl.Bounded entry i := by
  obtain ⟨hs, hbuilds⟩ := run_builds h
  obtain ⟨pts, hpoints⟩ := run_countsPoints h
  constructor
  case ends =>
    obtain ⟨root, st, st', hroot, hdrains, hdraft, -, -, -, -, hstats⟩ := hbuilds
    exact ⟨root, st, st', hroot, drains_iff_turns.1 hdrains, hdraft, hstats⟩
  case depth =>
    intro b kind hb
    obtain ⟨p, hp, hfor⟩ := hpoints.kindAt_eq_some.1 hb
    obtain ⟨block, hblock, rfl⟩ := Option.map_eq_some_iff.1 hfor
    rw [depth_of_blockFor hblock]
    exact hpoints.depth p (List.mem_of_getElem? hp)
  case deepest => exact hpoints.deepest
  case counted => exact hpoints.counted
  case instances =>
    obtain ⟨place, -, hrealizes⟩ := hbuilds.realizes hs
    rw [hrealizes.stats]
    exact instances_le

/-- However methods call each other, the loop ends, nothing lies deeper than the limit, the
greatest depth that was counted is that of an instance, and there are no more instances than a tree
of this height has nodes. -/
theorem run_bounded {method : Method} (hv : inl.resolver.Valid inl.program)
    (hm : inl.program.method? entry = some method) :
    (WellFounded fun s s' => inl.Turn s' s) ∧
      ∃ r, inl.run entry = .ok r ∧ (r = none ↔ method.stmts = []) ∧
        ∀ i, r = some i → inl.Bounded entry i := by
  refine ⟨turn_wellFounded inl, ?_⟩
  by_cases hs : method.stmts = []
  · exact ⟨none, run_eq_none hm hs, by simp [hs], by simp⟩
  · obtain ⟨i, hrun⟩ := run_ok hv hm hs
    refine ⟨some i, hrun, by simp [hs], ?_⟩
    rintro _ ⟨⟩
    exact bounded_of_run hrun

/-- A method that calls itself: the bound is reached. -/
theorem looping_calls_bounded : loopingCalls.resolver.Valid loopingCalls.program ∧
    ∃ i, loopingCalls.run 0 = .ok (some i) ∧ loopingCalls.Bounded 0 i ∧
      i.stats.instances =
        ∑ d ∈ Finset.range (loopingCalls.maxDepth + 1), loopingCalls.fanOut ^ d := by
  refine ⟨hierarchy_valid _, ?_⟩
  obtain ⟨-, r, hrun, -, hbounded⟩ := @run_bounded loopingCalls 0 _ (hierarchy_valid _) rfl
  obtain ⟨r', hrun', hinstances⟩ : ∃ r, loopingCalls.run 0 = .ok r ∧
    r.map (·.stats.instances) = some 3 := exists_ok (by decide +kernel)
  cases hrun.symm.trans hrun'
  obtain ⟨i, rfl, hthree⟩ := Option.map_eq_some_iff.1 hinstances
  refine ⟨i, hrun, hbounded i rfl, hthree.trans ?_⟩
  decide +kernel

end Inliner

end PointsTo
