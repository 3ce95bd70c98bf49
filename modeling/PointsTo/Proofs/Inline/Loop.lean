import Mathlib.Data.List.Induction
import Mathlib.Tactic.Abel
import PointsTo.Proofs.Inline.RecursiveSteps
import PointsTo.Proofs.Inline.Walks

/-! Inlining with a stack of waiting calls builds the graph that is defined by recursion. What is
built so far and what the waiting calls are still to bring make up the graph in every turn. -/
namespace PointsTo

namespace Inliner

/-- The loop: the call on top of the stack is spliced, and the calls of its callee are put on the
stack, the last one on top. -/
inductive Drains (inl : Inliner) : List PendingCall → Inlining → Inlining → Prop where
  | done {st} : Drains inl [] st st
  | turn {w inst stack st st₁ st'} : inl.splice w st = .ok (inst, st₁) →
      Drains inl (inst.calls.reverse ++ stack) st₁ st' → Drains inl (w :: stack) st st'

variable {inl : Inliner} {t : PointerTable} {m : MethodId} {receiver : Option Var}
  {st st₁ st' : Inlining} {pts : List Point} {stack calls : List PendingCall} {w : PendingCall}

/-- Expanding calls is as good as working off the stack on which they lie. -/
theorem Expands.drains {levels : Nat} (h : inl.Expands levels calls st st₁)
    (hdepth : inl.InLevels levels calls) (hrest : inl.Drains stack st₁ st') :
    inl.Drains (calls.reverse ++ stack) st st' := by
  induction h generalizing stack with
  | cut =>
    rw [hdepth.eq_nil]
    exact hrest
  | done => exact hrest
  | turn hsplice _ _ ih₁ ih₂ =>
    rw [List.reverse_append, List.reverse_singleton, List.singleton_append, List.cons_append]
    apply Drains.turn hsplice
    exact ih₁ (hdepth.spliced hsplice) (ih₂ hdepth.init hrest)

theorem Drains.extends_table (h : inl.Drains stack st st') : st.table ≤ st'.table := by
  induction h with
  | done => exact PointerTable.le_refl _
  | turn hsplice _ ih => exact PointerTable.le_trans (splice_spec hsplice).1 ih

section Counts

variable {depth base : Nat} {bis : List (LocalBlock × Nat)} {c : Call} {b : Nat}
  {call? : Option PendingCall} {inst : Instance}

def missed (inl : Inliner) (depth : Nat) (calls : List Call) : InlineStats :=
  ⟨0, 0, (inl.deepCalls depth calls).length, (inl.unknownCalls calls).length, 0⟩

theorem unknownCalls_append (cs cs' : List Call) :
    inl.unknownCalls (cs ++ cs') = inl.unknownCalls cs ++ inl.unknownCalls cs' :=
  List.filter_append cs cs'

theorem missed_append (cs cs' : List Call) :
    inl.missed depth (cs ++ cs') = inl.missed depth cs + inl.missed depth cs' := by
  unfold missed deepCalls
  rw [unknownCalls_append, InlineStats.add_eq]
  by_cases hd : depth < inl.maxDepth
  · simp [hd]
  · simp [hd]

theorem classifyCall_counts (h : inl.classifyCall m depth b c st = .ok (call?, st')) :
    st'.stats = st.stats + inl.missed depth [c] ∧ ∀ n, n ∈ st'.unresolved ↔
      n ∈ st.unresolved ∨ n ∈ (inl.unknownCalls [c]).map (·.callee.qualifiedName) := by
  obtain ⟨found, hfound, h⟩ := bind_eq_ok.1 h
  have hc := target_eq_ok hfound
  unfold missed deepCalls unknownCalls
  rw [InlineStats.add_eq]
  cases found with
  | none =>
    cases h
    simp [hc, OrderedSet.mem_insert, or_comm]
  | some callee =>
    simp only at h
    split at h
    · next hd =>
      cases h
      simp [hc, hd]
    · next hd =>
      obtain ⟨method, -, h⟩ := bind_eq_ok.1 h
      cases h
      simp [hc, hd]

theorem classifyCalls_counts {cs : List PendingCall}
    (h : inl.classifyCalls m depth base bis st = .ok (cs, st')) :
    let calls := bis.filterMap fun bi => bi.1.call.map (·.2)
    st'.stats = st.stats + inl.missed depth calls ∧ ∀ n, n ∈ st'.unresolved ↔
      n ∈ st.unresolved ∨ n ∈ (inl.unknownCalls calls).map (·.callee.qualifiedName) := by
  induction bis generalizing st cs with
  | nil =>
    cases h
    simp [missed, deepCalls, unknownCalls, InlineStats.add_eq]
  | cons bi bis ih =>
    obtain ⟨lb, i⟩ := bi
    rw [classifyCalls] at h
    cases hcall : lb.call with
    | none =>
      rw [hcall] at h
      simpa [hcall] using ih h
    | some ic =>
      rw [hcall] at h
      obtain ⟨⟨call?, st₁⟩, h₁, h⟩ := bind_eq_ok.1 h
      obtain ⟨⟨cs', st₂⟩, h₂, h⟩ := bind_eq_ok.1 h
      cases h
      obtain ⟨hstats₁, hnames₁⟩ := classifyCall_counts h₁
      obtain ⟨hstats, hnames⟩ := ih h₂
      simp only [List.filterMap_cons, hcall, Option.map_some]
      generalize bis.filterMap (fun bi => bi.1.call.map (·.2)) = rest at hstats hnames
      have hmissed : inl.missed depth (ic.2 :: rest) =
        inl.missed depth [ic.2] + inl.missed depth rest := missed_append [ic.2] rest
      have hunknown : inl.unknownCalls (ic.2 :: rest) =
        inl.unknownCalls [ic.2] ++ inl.unknownCalls rest := unknownCalls_append [ic.2] rest
      constructor
      · rw [hstats, hstats₁, hmissed, add_assoc]
      · intro n
        rw [hnames, hnames₁, hunknown, List.map_append, List.mem_append, or_assoc]

theorem callsOf_eq (inl : Inliner) (m : MethodId) (receiver : Option Var) (t : PointerTable) :
    (methodBlocks inl.hooks m (inl.stmtsOf m) receiver t).1.zipIdx.filterMap
      (fun bi => bi.1.call.map (·.2)) = inl.callsOf m receiver := by
  have hfixed := methodBlocks_fixed inl.hooks m (inl.stmtsOf m) receiver t
  rw [← hfixed, ← Function.comp_def (fun lb : LocalBlock => lb.call.map (·.2)) Prod.fst,
    ← List.filterMap_map, List.zipIdx_map_fst, callsOf, namedBlocksOf]
  have hdenote := methodBlocks_denote (congrArg Prod.snd hfixed)
  generalize (methodBlocks inl.hooks m (inl.stmtsOf m) receiver _).1 = blocks at hdenote ⊢
  generalize namedBlocks inl.hooks m (inl.stmtsOf m) receiver = named at hdenote ⊢
  induction hdenote with
  | nil => rfl
  | cons hd _ ih => rw [List.filterMap_cons, List.filterMap_cons, hd.call, ih]

/-- An instance is counted as its part of the graph without what its calls run. -/
theorem instantiate_counts (callers : List Activation)
    (h : inl.instantiate m receiver callers.length st = .ok (inst, st')) :
    st'.stats = st.stats + (inl.alone m receiver callers).stats ∧ ∀ n, n ∈ st'.unresolved ↔
      n ∈ st.unresolved ∨ n ∈ (inl.alone m receiver callers).unresolved := by
  obtain ⟨method, hm, h⟩ := bind_eq_ok.1 h
  have hstmts : inl.stmtsOf m = method.stmts := stmtsOf_eq (orFault_eq_ok.1 hm)
  have hcallsOf := hstmts ▸ callsOf_eq inl m receiver st.table
  obtain ⟨⟨calls, st₁⟩, hcalls, h⟩ := bind_eq_ok.1 h
  cases h
  obtain ⟨hstats, hnames⟩ := hcallsOf ▸ classifyCalls_counts hcalls
  refine ⟨hstats.trans ?_, hnames⟩
  simp [missed, alone, InlineStats.add_eq]

theorem splice_counts {callers : List Activation} (hdepth : w.depth = callers.length)
    (h : inl.splice w st = .ok (inst, st')) :
    let alone := inl.alone w.callee (receiverOf w.caller w.call) callers
    st'.stats = st.stats + (alone.stats + ⟨0, 1, 0, 0, 0⟩) ∧
      ∀ n, n ∈ st'.unresolved ↔ n ∈ st.unresolved ∨ n ∈ alone.unresolved := by
  obtain ⟨⟨inst', st₁⟩, hinst, h⟩ := bind_eq_ok.1 h
  obtain ⟨method, -, h⟩ := bind_eq_ok.1 h
  cases h
  rw [hdepth] at hinst
  obtain ⟨hstats, hnames⟩ := instantiate_counts callers hinst
  refine ⟨?_, hnames⟩
  have hspliced : st₁.stats + ⟨0, 1, 0, 0, 0⟩ = { st₁.stats with
    spliced := st₁.stats.spliced + 1 } := by simp [InlineStats.add_eq]
  exact hspliced.symm.trans (by rw [hstats, add_assoc]; rfl)

end Counts

section Holes

variable {callers : List Activation} {site : Activation} {root : Fragment}

def hole (inl : Inliner) (pts : List Point) (w : PendingCall) : Fragment :=
  match pts[w.block]? with
  | some (.block site callers) => inl.part callers (site, w.call, w.callee)
  | _ => ∅

def holes (inl : Inliner) (pts : List Point) (stack : List PendingCall) : Fragment :=
  .join (stack.map (inl.hole pts))

/-- What is built and what is waited for make up the whole graph, up to the order of its parts. -/
structure Balanced (inl : Inliner) (root : Fragment) (st : Inlining) (pts : List Point)
    (stack : List PendingCall) : Prop where
  places : (pts ++ (inl.holes pts stack).places).Perm root.places
  methods : ∀ m, m ∈ root.methods ↔ m ∈ st.methods ∨ m ∈ (inl.holes pts stack).methods
  unresolved : ∀ n, n ∈ root.unresolved ↔ n ∈ st.unresolved ∨ n ∈ (inl.holes pts stack).unresolved
  stats : root.stats = st.stats + (inl.holes pts stack).stats

theorem hole_eq (h : pts[w.block]? = some (.block site callers)) :
    inl.hole pts w = inl.part callers (site, w.call, w.callee) := by
  rw [hole, h]

theorem hole_of_prefix {pts' : List Point} (hp : pts <+: pts') (hlt : w.block < pts.length) :
    inl.hole pts' w = inl.hole pts w := by
  obtain ⟨tail, rfl⟩ := hp
  rw [hole, hole, List.getElem?_append_left hlt]

theorem filterMap_zipIdx {α β : Type} (xs : List α) (f : α × Nat → Option β) :
    xs.zipIdx.filterMap f =
      (List.range xs.length).filterMap fun i => xs[i]?.bind fun x => f (x, i) := by
  induction xs using List.reverseRecOn with
  | nil => rfl
  | append_singleton xs x ih =>
    rw [List.zipIdx_append, List.filterMap_append, ih, List.length_append, List.length_singleton,
      List.range_succ, List.filterMap_append]
    congr 1
    · refine List.filterMap_congr fun i hi => ?_
      rw [List.getElem?_append_left (List.mem_range.1 hi)]
    · simp [List.filterMap_cons]

theorem pendingOf_eq {base : Nat}
    (ht : (methodBlocks inl.hooks m (inl.stmtsOf m) receiver t).2 = t) :
    inl.pendingOf m callers.length base (inl.blocksOf t m receiver).zipIdx =
      (inl.followedCalls m receiver callers).map fun (a, c, callee) =>
        ⟨base + a.block, m, c, callee, callers.length + 1⟩ := by
  rw [pendingOf, filterMap_zipIdx, followedCalls, List.map_filterMap, activations,
    List.filterMap_map, length_blocksOf]
  refine List.filterMap_congr fun i _ => ?_
  have hentered := entered_eq_followed (a := ⟨m, receiver, i⟩) ht callers
  change (inl.blockAt t ⟨m, receiver, i⟩).bind _ = _
  rw [Function.comp_apply, ← hentered, entered, callAt]
  cases inl.blockAt t ⟨m, receiver, i⟩ with
  | none => rfl
  | some lb =>
    cases hcall : lb.call with
    | none => simp [hcall]
    | some ic =>
      cases hc : inl.callee? ic.2 with
      | none => simp [hcall, hc, pendingFor]
      | some callee =>
        by_cases hd : callers.length < inl.maxDepth
        · simp [hcall, hc, hd, pendingFor]
        · simp [hcall, hd, pendingFor]

theorem join_perm {fs gs : List Fragment} (h : fs.Perm gs) :
    (Fragment.join fs).places.Perm (Fragment.join gs).places ∧
      (∀ m, m ∈ (Fragment.join fs).methods ↔ m ∈ (Fragment.join gs).methods) ∧
      (∀ n, n ∈ (Fragment.join fs).unresolved ↔ n ∈ (Fragment.join gs).unresolved) ∧
      (Fragment.join fs).stats = (Fragment.join gs).stats := by
  simp only [Fragment.places_join, Fragment.methods_join, Fragment.unresolved_join,
    Fragment.stats_join]
  exact ⟨h.flatMap_right _, fun m => (h.flatMap_right _).mem_iff,
    fun n => (h.flatMap_right _).mem_iff, (h.map _).sum_eq⟩

/-- The calls of an instance are to bring all that its part of the graph does not have yet. -/
theorem holes_of_instance (callers : List Activation) (base : Nat)
    (ht : (methodBlocks inl.hooks m (inl.stmtsOf m) receiver t).2 = t)
    (hpts : ∀ i < (inl.blocksOf t m receiver).length,
      pts[base + i]? = some (.block ⟨m, receiver, i⟩ callers)) :
    (inl.pendingOf m callers.length base (inl.blocksOf t m receiver).zipIdx).map (inl.hole pts) =
      (inl.followedCalls m receiver callers).map (inl.part callers) := by
  rw [pendingOf_eq ht, List.map_map]
  refine List.map_congr_left fun f hf => ?_
  obtain ⟨a, c, callee⟩ := f
  obtain ⟨rfl, rfl, hi⟩ := mem_activations.1 (mem_followedCalls.1 hf).1
  exact hole_eq (hpts a.block (length_blocksOf (t := t) ▸ hi))

theorem Balanced.perm {stack' : List PendingCall} (h : inl.Balanced root st pts stack)
    (hp : stack.Perm stack') : inl.Balanced root st pts stack' := by
  obtain ⟨hplaces, hmethods, hunresolved, hstats⟩ := join_perm (hp.map (inl.hole pts))
  constructor
  · exact (hplaces.symm.append_left pts).trans h.places
  · intro m
    rw [h.methods, holes, hmethods]
    rfl
  · intro n
    rw [h.unresolved, holes, hunresolved]
    rfl
  · rw [h.stats, holes, hstats]
    rfl

theorem start_balanced {entry : MethodId} {inst : Instance}
    (h : inl.instantiate entry none 0 (.start ∅) = .ok (inst, st)) (ht : st.table ≤ t) :
    inl.Balanced (inl.graphOf entry none []) st
      (instancePoints entry none (inl.blocksOf t entry none).length []) inst.calls := by
  obtain ⟨-, -, -, hmethods, hspec⟩ := instantiate_spec h
  obtain ⟨hblocks, -, rfl, -⟩ := hspec t ht
  obtain ⟨hstats, hnames⟩ := instantiate_counts [] h
  have hholes : inl.holes (instancePoints entry none (inl.blocksOf t entry none).length [])
      (inl.pendingOf entry 0 (Inlining.start ∅).draft.size (inl.blocksOf t entry none).zipIdx) =
      .join ((inl.followedCalls entry none []).map (inl.part [])) := by
    refine congrArg Fragment.join (holes_of_instance [] _ hblocks fun i hi => ?_)
    change (instancePoints _ _ _ _)[0 + i]? = _
    rw [Nat.zero_add, getElem?_instancePoints hi]
  constructor
  · rw [hholes, graphOf_eq, Fragment.places_append, places_alone, length_blocksOf]
  · intro m
    rw [hholes, graphOf_eq, Fragment.methods_append, List.mem_append, hmethods,
      OrderedSet.mem_insert]
    refine or_congr_left ?_
    simp [alone, Inlining.start]
  · intro n
    rw [hholes, graphOf_eq, Fragment.unresolved_append, List.mem_append, hnames]
    refine or_congr_left ?_
    simp [Inlining.start]
  · rw [hholes, graphOf_eq, Fragment.stats_append, hstats]
    change _ = (0 : InlineStats) + _ + _
    rw [zero_add]

/-- The calls of the callee are to bring what its own instance does not have, and the other calls
are to bring what they were before. -/
theorem holes_spliced {inst : Instance} (hl : inl.Layout t st pts (w :: stack))
    (hw : inl.Waits t st.draft pts w site callers) (hs : inl.splice w st = .ok (inst, st'))
    (ht : st'.table ≤ t) : inl.holes (inl.pointsAfter t pts w site callers) (inst.calls ++ stack) =
      .join ((inl.followedCalls w.callee (receiverOf w.caller w.call) (site :: callers)).map
        (inl.part (site :: callers))) ++ inl.holes pts stack := by
  obtain ⟨-, -, -, hspec⟩ := splice_spec hs
  obtain ⟨hblocks, -, -, rfl, -⟩ := hspec t ht
  have hold : stack.map (inl.hole (inl.pointsAfter t pts w site callers)) =
      stack.map (inl.hole pts) := by
    refine List.map_congr_left fun v hv => ?_
    obtain ⟨s, cs, hvs⟩ := hl.waits v (List.mem_cons_of_mem w hv)
    exact hole_of_prefix (List.prefix_append _ _) (List.getElem?_eq_some_iff.1 hvs.at_block).1
  have hpoints : ∀ i < (inl.blocksOf t w.callee (receiverOf w.caller w.call)).length,
      (inl.pointsAfter t pts w site callers)[st.draft.size + i]? =
        some (.block ⟨w.callee, receiverOf w.caller w.call, i⟩ (site :: callers)) := by
    intro i hi
    rw [← hl.size]
    exact splicedPoints_block hi
  have hnew := holes_of_instance (site :: callers) st.draft.size hblocks hpoints
  rw [show (site :: callers).length = w.depth from hw.depth.symm] at hnew
  rw [holes, List.map_append, hnew, hold, Fragment.join_append, holes]

theorem Waits.holes_cons (hw : inl.Waits t st.draft pts w site callers) (stack : List PendingCall) :
    inl.holes pts (w :: stack) = inl.around site callers w.call w.callee
      (inl.alone w.callee (receiverOf w.caller w.call) (site :: callers) ++
        .join ((inl.followedCalls w.callee (receiverOf w.caller w.call) (site :: callers)).map
          (inl.part (site :: callers)))) ++ inl.holes pts stack := by
  have hpart : inl.part callers (site, w.call, w.callee) = inl.around site callers w.call w.callee
      (inl.graphOf w.callee (receiverOf w.caller w.call) (site :: callers)) := by
    rw [hw.caller]
    rfl
  rw [← graphOf_eq, ← hpart, ← hole_eq hw.at_block, holes, List.map_cons]
  rfl

/-- A splice moves what the call is to bring from the waiting calls into the graph, except for what
the calls of its callee are to bring. -/
theorem Balanced.splice {inst : Instance} (h : inl.Balanced root st pts (w :: stack))
    (hl : inl.Layout t st pts (w :: stack)) (hw : inl.Waits t st.draft pts w site callers)
    (hs : inl.splice w st = .ok (inst, st')) (ht : st'.table ≤ t) :
    inl.Balanced root st' (inl.pointsAfter t pts w site callers) (inst.calls ++ stack) := by
  obtain ⟨-, -, hmethods, -⟩ := splice_spec hs
  obtain ⟨hstats, hnames⟩ :=
    splice_counts (show w.depth = (site :: callers).length from hw.depth) hs
  have hholes := holes_spliced hl hw hs ht
  have hhole := hw.holes_cons stack
  generalize Fragment.join ((inl.followedCalls w.callee (receiverOf w.caller w.call)
    (site :: callers)).map (inl.part (site :: callers))) = rest at hholes hhole
  constructor
  · refine List.perm_iff_count.2 fun p => ?_
    have hcount := List.perm_iff_count.1 h.places p
    rw [hhole, Fragment.places_append, places_around, Fragment.places_append,
      places_alone] at hcount
    rw [hholes, Fragment.places_append, pointsAfter, splicedPoints, length_blocksOf]
    simp only [List.count_append, List.count_cons, List.count_nil] at hcount ⊢
    omega
  · intro m
    have hcallee : m ∈ (inl.holes pts (w :: stack)).methods ↔
        m = w.callee ∨ m ∈ (rest ++ inl.holes pts stack).methods := by
      rw [hhole]
      simp [around, alone]
    rw [h.methods, hholes, hcallee, hmethods, OrderedSet.mem_insert]
    exact or_left_comm.trans or_assoc.symm
  · intro n
    have hcallee : n ∈ (inl.holes pts (w :: stack)).unresolved ↔
        n ∈ (inl.alone w.callee (receiverOf w.caller w.call) (site :: callers)).unresolved ∨
          n ∈ (rest ++ inl.holes pts stack).unresolved := by
      rw [hhole]
      simp only [around, Fragment.unresolved_append, List.mem_append, or_assoc]
    rw [h.unresolved, hholes, hcallee, hnames, or_assoc]
  · rw [h.stats, hhole, hholes, hstats, Fragment.stats_append, Fragment.stats_append]
    change _ + ((_ + _ + _) + _) = _
    abel

/-- The loop fills every hole. -/
theorem Drains.fills (h : inl.Drains stack st st') (hl : inl.Layout t st pts stack)
    (hb : inl.Balanced root st pts stack) (ht : st'.table ≤ t) :
    ∃ pts', pts <+: pts' ∧ inl.Layout t st' pts' [] ∧ inl.Balanced root st' pts' [] := by
  induction h generalizing pts with
  | done => exact ⟨pts, List.prefix_refl _, hl, hb⟩
  | @turn w inst stack st st₁ st' hsplice hrest ih =>
    have ht₁ := PointerTable.le_trans hrest.extends_table ht
    obtain ⟨site, callers, hw⟩ := hl.waits w List.mem_cons_self
    have horder : (inst.calls ++ stack).Perm (inst.calls.reverse ++ stack) :=
      inst.calls.reverse_perm.symm.append_right stack
    have hl₁ := (spliced_layout hl hw hsplice ht₁).perm horder
    have hb₁ := (hb.splice hl hw hsplice ht₁).perm horder
    obtain ⟨pts', hpts, hfilled⟩ := ih hl₁ hb₁ ht
    exact ⟨pts', List.IsPrefix.trans (List.prefix_append _ _) hpts, hfilled⟩

end Holes

end Inliner

end PointsTo
