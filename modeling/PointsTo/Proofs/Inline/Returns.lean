import PointsTo.Proofs.Inline.Arguments
import PointsTo.Proofs.Inline.Exits
import PointsTo.Proofs.Inline.Realization
import PointsTo.Proofs.Inline.Stack

/-! Results of calls. The exits of a callee copy what they return to the variable of the caller
that takes the result, and the block behind the call joins the exits. It assigns that variable
nothing. -/
namespace PointsTo

def ReturnsVar (stmts : List Stmt) (x : Nat) (v : Slot) : Prop :=
  stmts[x]? = some (.ret (some (.var v)))

namespace Point

def activation : Point → Activation
  | block a _ | enter a _ | leave a _ => a

end Point

namespace Inliner

variable {inl : Inliner} {m callee : MethodId} {receiver : Option Var} {t : PointerTable}
  {a site : Activation} {cs callers : List Activation} {call : Call} {p : Point} {v : Slot}
  {lb : LocalBlock}

section Places

theorem enter_mem_places (h : .leave site cs ∈ (inl.graphOf m receiver callers).places) :
    .enter site cs ∈ (inl.graphOf m receiver callers).places := by
  induction m, receiver, callers using @graphOf_induction inl with
  | step m receiver callers ih =>
    rcases mem_places_graphOf.1 h with ⟨a, -, heq⟩ | ⟨a, c, callee, hcall, heq | heq | hin⟩
    · cases heq
    · cases heq
    · cases heq
      exact mem_places_graphOf.2 (.inr ⟨_, c, callee, hcall, .inl rfl⟩)
    · have henter := ih a c callee hcall hin
      exact mem_places_graphOf.2 (.inr ⟨a, c, callee, hcall, .inr (.inr henter)⟩)

/-- A point is in an instance of the first method, or of what its last caller calls. -/
theorem activation_of_mem_places (hp : p ∈ (inl.graphOf m receiver callers).places)
    (hn : ∀ p ∈ (inl.graphOf m receiver callers).places, inl.Numbered t p) :
    (p.callers = callers ∧ p.activation ∈ inl.activations m receiver) ∨
      ∃ s rest c callee, p.callers = s :: rest ∧ inl.entered t s rest = some (c, callee) ∧
        p.activation ∈ inl.activations callee (receiverOf s.method c) := by
  induction m, receiver, callers using @graphOf_induction inl with
  | step m receiver callers ih =>
    rcases mem_places_graphOf.1 hp with ⟨a, ha, rfl⟩ | ⟨a, c, callee, hcall, hin⟩
    · exact .inl ⟨rfl, ha⟩
    · obtain ⟨ha, hf⟩ := mem_followedCalls.1 hcall
      rcases hin with rfl | rfl | hin
      · exact .inl ⟨rfl, ha⟩
      · exact .inl ⟨rfl, ha⟩
      · rcases ih a c callee hcall hin (numbered_callee hn hcall) with ⟨hcallers, hact⟩ | hdeeper
        · rw [← entered_eq_followed (numbered_of_activation hn ha)] at hf
          obtain ⟨rfl, -⟩ := mem_activations.1 ha
          exact .inr ⟨a, callers, c, callee, hcallers, hf, hact⟩
        · exact .inr hdeeper

end Places

/-- The copy that returns a variable is the last one of its block. -/
theorem movesAt_of_returns (cs : List Activation) {x : Var} (hlb : inl.blockAt t a = some lb)
    (hv : ReturnsVar (inl.stmtsOf a.method) lb.last v) (hx : a.receiver = some x) :
    ∃ before, inl.movesAt t (.block a cs) = before ++ Pointer.ofVars [(x, ⟨a.method, v⟩)] := by
  have hbounds := block_bounds (blockAt_eq_some hlb)
  have hlength : lb.last + 1 - lb.first = lb.last - lb.first + 1 := by omega
  have hlast : lb.first + (lb.last - lb.first) = lb.last := by omega
  have hlowering : (inl.stmtsOf a.method)[lb.last]?.bind (·.lowering a.method a.receiver lb.last) =
      some (.var x, .var ⟨a.method, v⟩) := by
    rw [hv, hx]
    rfl
  refine ⟨loweringsFrom a.method a.receiver (inl.stmtsOf a.method) lb.first
    (lb.last - lb.first), ?_⟩
  rw [movesAt, hlb, Option.elim_some, hlength, loweringsFrom_succ, hlast, hlowering]
  rfl

theorem entered_of_returns (hn : inl.Numbered t (.block a cs)) (hlb : inl.blockAt t a = some lb)
    (hv : ReturnsVar (inl.stmtsOf a.method) lb.last v) : inl.entered t a cs = none := by
  have hcall : inl.callAt t a = none := by
    rw [callAt_of_stmt hn hlb hv]
    cases a.receiver <;> rfl
  rw [entered, hcall]
  rfl

def exitsOfCall (inl : Inliner) (t : PointerTable) (site : Activation) (call : Call)
    (callee : MethodId) : List Activation :=
  (exitsOf (inl.blocksOf t callee (receiverOf site.method call))).map
    (⟨callee, receiverOf site.method call, ·⟩)

def ReturnsAt (inl : Inliner) (t : PointerTable) (a : Activation) (v : Slot) : Prop :=
  ∃ lb, inl.blockAt t a = some lb ∧ ReturnsVar (inl.stmtsOf a.method) lb.last v

theorem mem_exitsOfCall : a ∈ inl.exitsOfCall t site call callee ↔ a.method = callee ∧
    a.receiver = receiverOf site.method call ∧ ∃ lb, inl.blockAt t a = some lb ∧
      lb.isExit = true := by
  rw [exitsOfCall, List.mem_map]
  constructor
  · rintro ⟨j, hj, rfl⟩
    exact ⟨rfl, rfl, mem_exitsOf.1 hj⟩
  · rintro ⟨rfl, hr, hexit⟩
    refine ⟨a.block, mem_exitsOf.2 ?_, by rw [← hr]⟩
    rw [← hr]
    exact hexit

/-- Before the block behind a call, control is at an exit of the callee or behind the last call of
one. -/
theorem before_leave (h : .leave site callers ∈ inl.next t p) :
    p.callers = site :: callers ∧ inl.succsAt t p.activation = [] ∧
      (p = .block p.activation p.callers ∨ p = .leave p.activation p.callers) := by
  have hafter : ∀ a cs, .leave site callers ∈ inl.afterwards t a cs →
      cs = site :: callers ∧ inl.succsAt t a = [] := by
    intro a cs hmem
    rcases mem_afterwards.1 hmem with ⟨j, -, hq⟩ | ⟨hs, s, cs', rfl, hq⟩
    · cases hq
    · cases hq
      exact ⟨rfl, hs⟩
  cases p with
  | block a cs =>
    rw [next] at h
    split at h
    · cases List.mem_singleton.1 h
    · obtain ⟨hcs, hs⟩ := hafter a cs h
      exact ⟨hcs, hs, .inl rfl⟩
  | enter a cs =>
    obtain ⟨found, -, hq⟩ := List.mem_map.1 h
    cases hq
  | leave a cs =>
    obtain ⟨hcs, hs⟩ := hafter a cs h
    exact ⟨hcs, hs, .inr rfl⟩

theorem receiver_not_written_back {x : Var} {vars : List (Var × Var)} :
    x ∉ (writtenBack (some x) vars).map Prod.fst := by
  intro hmem
  obtain ⟨⟨v, w⟩, hmem, rfl⟩ := List.mem_map.1 hmem
  exact (mem_writtenBack.1 hmem).2 rfl

end Inliner

section Sources

variable {t : PointerTable} {copies : List Copy} {fieldsAt : Var → List FieldRef} {n k : Nat}
  {x y : Var} {before : List (Pointer × Pointer)}

/-- What a last copy between variables brings is what its source has, behind both. -/
theorem sourceOf_eq_of_last (hn : List.Forall₂ (Copy.Names t) copies
      ((before ++ Pointer.ofVars [(x, y)]).flatMap (withFields fieldsAt)))
    (hx : t.get? n = some (.var x)) (hy : t.get? k = some (.var y)) :
    sourceOf copies n = sourceOf copies k := by
  have horigin : origin [(x, y)] x = origin [(x, y)] y := by
    by_cases h : y = x <;> simp [origin, h]
  have hsource := get?_sourceOf hn hx
  have hsource' := get?_sourceOf hn hy
  rw [List.flatMap_append, origin_append, origin_withFields_var] at hsource hsource'
  rw [horigin] at hsource
  exact PointerTable.get?_inj hsource hsource'

end Sources

namespace Analysis

open Inliner

variable {a : Analysis} {entry : MethodId} {i : Inlined} {c : Construction} {pts : List Point}
  {site act : Activation} {callers : List Activation} {call : Call} {callee : MethodId}

/-- The construction, with the graph that is defined by recursion for its points. -/
theorem built_places {main : Method} (hv : a.resolver.Valid a.program)
    (hm : a.program.method? entry = some main) (hs : main.stmts ≠ []) :
    ∃ i c pts fieldsAt, a.inliner.run entry = .ok (some i) ∧ a.complete i = .ok c ∧
      a.EdgesAreSteps entry i c pts ∧ a.Copies i c pts fieldsAt ∧
      pts.Perm (a.inliner.graphOf entry none []).places := by
  obtain ⟨i, c, hrun, hc, -⟩ := built hv hm hs
  obtain ⟨hstmts, hbuilds⟩ := run_builds hrun
  obtain ⟨st, pts, hl, hb, hstart, hentry, hdraft, -⟩ := hbuilds.filled hstmts
  obtain ⟨fields, hfields, hsites, hgraph, -⟩ := complete_eq_ok hc
  obtain ⟨fieldsAt, hexpands, hshares⟩ := expands_of_fields hfields
  refine ⟨i, c, pts, fieldsAt, hrun, hc, ?_, ?_, hb.perm_places⟩
  · exact edgesAreSteps_of_expands hl hdraft.symm hexpands hgraph hstart hentry
  · exact copies_of_expands hl hdraft.symm hexpands hgraph (Sites.ofMethods_spec hsites).1 hshares

/-- Block `e` stands for an exit of a callee, and `k` is the number of the variable that it
returns. -/
def ExitAt (a : Analysis) (i : Inlined) (c : Construction) (pts : List Point) (act : Activation)
    (cs : List Activation) (e k : Nat) : Prop :=
  ∃ v, a.inliner.ReturnsAt i.table act v ∧ pts[e]? = some (.block act cs) ∧
    c.table.get? k = some (.var ⟨act.method, v⟩)

section Calls

variable {fieldsAt : Var → List FieldRef} {b e k n : Nat} {x : Var}

theorem ExitAt.numbered (h : a.ExitAt i c pts act callers e k)
    (hsteps : a.EdgesAreSteps entry i c pts) :
    a.inliner.Numbered i.table (.block act callers) := by
  obtain ⟨v, -, he, -⟩ := h
  exact hsteps.numbered _ (List.mem_of_getElem? he)

theorem ExitAt.predecessor (h : a.ExitAt i c pts act (site :: callers) e k)
    (hsteps : a.EdgesAreSteps entry i c pts) (hb : pts[b]? = some (.leave site callers)) :
    e ∈ c.graph.predecessors b := by
  have hn := h.numbered hsteps
  obtain ⟨v, ⟨lb, hlb, hv⟩, he, -⟩ := h
  have hexit : lb.isExit = true := by
    rw [LocalBlock.isExit, OrderedSet.isEmpty, succs_of_return (blockAt_eq_some hlb) hv]
    rfl
  rw [hsteps.wellFormed.transpose, hsteps.mem_successors_iff he hb, next,
    entered_of_returns hn hlb hv]
  exact (leave_mem_afterwards hlb).2 hexit

/-- Behind an exit the variable that takes the result has what the returned variable has. -/
theorem ExitAt.holds_iff (h : a.ExitAt i c pts act callers e k)
    (hsteps : a.EdgesAreSteps entry i c pts) (hcopies : a.Copies i c pts fieldsAt)
    (hx : act.receiver = some x) (hn : c.table.get? n = some (.var x)) {seed : Facts}
    {f : Nat → Facts} (hsolves : c.graph.Solves seed f) (l : Nat) :
    (f e).Holds n l ↔ (f e).Holds k l := by
  obtain ⟨v, ⟨lb, hlb, hv⟩, he, hk⟩ := h
  obtain ⟨before, hmoves⟩ := movesAt_of_returns callers hlb hv hx
  have hnames := hcopies.names e _ he
  rw [hmoves] at hnames
  have hlt : e < c.graph.size := hsteps.size ▸ (List.getElem?_eq_some_iff.1 he).1
  rw [Graph.solves_iff.1 hsolves e hlt, Graph.holds_transfer, Graph.holds_transfer,
    sourceOf_eq_of_last hnames hn hk]

variable (hsteps : a.EdgesAreSteps entry i c pts)
  (hplaces : pts.Perm (a.inliner.graphOf entry none []).places)
  (hb : pts[b]? = some (.leave site callers))
  (hcall : a.inliner.entered i.table site callers = some (call, callee))

include hsteps hplaces hb hcall in
theorem exists_exit_block (hact : act ∈ a.inliner.exitsOfCall i.table site call callee) :
    ∃ e : Nat, pts[e]? = some (.block act (site :: callers)) := by
  obtain ⟨rfl, hreceiver, lb, hlb, -⟩ := mem_exitsOfCall.1 hact
  have henter := enter_mem_places (hplaces.mem_iff.1 (List.mem_of_getElem? hb))
  obtain ⟨n, hn⟩ := List.mem_iff_getElem?.1 (hplaces.mem_iff.2 henter)
  have hlt : act.block < (a.inliner.blocksOf i.table act.method
      (receiverOf site.method call)).length := by
    rw [← hreceiver]
    exact (List.getElem?_eq_some_iff.1 (blockAt_eq_some hlb)).1
  obtain ⟨e, he⟩ := hsteps.block_of_enter hn hcall hlt
  rw [← hreceiver] at he
  exact ⟨e, he⟩

include hsteps hplaces hb hcall in
theorem exists_exitAt (hcopies : a.Copies i c pts fieldsAt)
    (hx : receiverOf site.method call = some x)
    (hact : act ∈ a.inliner.exitsOfCall i.table site call callee) {v : Slot}
    (hv : a.inliner.ReturnsAt i.table act v) :
    ∃ e k, a.ExitAt i c pts act (site :: callers) e k := by
  obtain ⟨e, he⟩ := exists_exit_block hsteps hplaces hb hcall hact
  have hreceiver := (mem_exitsOfCall.1 hact).2.1.trans hx
  obtain ⟨lb, hlb, hret⟩ := hv
  obtain ⟨before, hmoves⟩ := movesAt_of_returns (site :: callers) hlb hret hreceiver
  have hnames := hcopies.names e _ he
  rw [hmoves, List.flatMap_append] at hnames
  obtain ⟨copy, -, -, hsource⟩ := exists_named_copy hnames (List.mem_append_right _
    (var_pair_mem (List.mem_singleton_self ((x, ⟨act.method, v⟩) : Var × Var))))
  exact ⟨e, copy.source, v, ⟨lb, hlb, hret⟩, he, hsource⟩

include hsteps hplaces hb hcall in
/-- If all exits return variables, control comes from them alone. -/
theorem exitAt_of_predecessor
    (hreturns : ∀ act ∈ a.inliner.exitsOfCall i.table site call callee,
      ∃ v, a.inliner.ReturnsAt i.table act v)
    (he : e ∈ c.graph.predecessors b) :
    ∃ act ∈ a.inliner.exitsOfCall i.table site call callee,
      pts[e]? = some (.block act (site :: callers)) := by
  have hsucc := (hsteps.wellFormed.transpose e b).1 he
  obtain ⟨p, hp⟩ : ∃ p, pts[e]? = some p :=
    ⟨_, List.getElem?_eq_getElem (hsteps.size.symm ▸ (hsteps.wellFormed.edge_inside e b hsucc).1)⟩
  have hmem := List.mem_of_getElem? hp
  obtain ⟨hcallers, hnone, hkind⟩ := before_leave ((hsteps.mem_successors_iff hp hb).1 hsucc)
  obtain ⟨hnil, -⟩ | ⟨s, rest, call', callee', hcons, he', hact⟩ :=
    activation_of_mem_places (hplaces.mem_iff.1 hmem)
      fun p hp => hsteps.numbered p (hplaces.mem_iff.2 hp)
  · cases hcallers.symm.trans hnil
  cases hcallers.symm.trans hcons
  cases hcall.symm.trans he'
  obtain ⟨hmethod, hreceiver, -⟩ := mem_activations.1 hact
  obtain ⟨lb, hlb⟩ : ∃ lb, a.inliner.blockAt i.table p.activation = some lb := by
    obtain ⟨block, hblock⟩ := hsteps.exists_block hp
    rcases hkind with hkind | hkind
    · rw [hkind] at hblock
      obtain ⟨lb, hlb, -⟩ := Option.map_eq_some_iff.1 hblock
      exact ⟨lb, hlb⟩
    · rw [hkind] at hblock
      obtain ⟨⟨call, callee⟩, hentered, -⟩ := Option.map_eq_some_iff.1 hblock
      obtain ⟨lb, hlb, -⟩ := Option.bind_eq_some_iff.1 (entered_eq_some.1 hentered).1
      exact ⟨lb, hlb⟩
  have hexit : p.activation ∈ a.inliner.exitsOfCall i.table site call callee := by
    refine mem_exitsOfCall.2 ⟨hmethod, hreceiver, lb, hlb, ?_⟩
    rw [succsAt, hlb] at hnone
    rwa [LocalBlock.isExit, OrderedSet.isEmpty, List.isEmpty_iff]
  refine ⟨_, hexit, ?_⟩
  rcases hkind with hkind | hkind
  · rw [hp, hkind, hcallers]
    rfl
  · -- behind a call; a block that returns follows none
    obtain ⟨v, lb, hlb, hv⟩ := hreturns _ hexit
    obtain ⟨e', he'⟩ := exists_exit_block hsteps hplaces hb hcall hexit
    have hnone := entered_of_returns (hsteps.numbered _ (List.mem_of_getElem? he')) hlb hv
    obtain ⟨block, hblock⟩ := hsteps.exists_block hp
    rw [hkind, hcallers, blockFor, hnone] at hblock
    cases hblock

end Calls

/-- A result is merged exactly: behind a call whose callee leaves by returns of variables only, the
variable that takes the result has what the seed has for it and what the exits have for the
variables they return, and nothing else. -/
theorem result_is_merge_of_returns {main : Method} (hv : a.resolver.Valid a.program)
    (hm : a.program.method? entry = some main) (hs : main.stmts ≠ []) :
    ∃ i c pts, a.inliner.run entry = .ok (some i) ∧ a.complete i = .ok c ∧
      a.EdgesAreSteps entry i c pts ∧
      ∀ (b : Nat) site callers, pts[b]? = some (.leave site callers) →
        ∃ call callee, a.inliner.entered i.table site callers = some (call, callee) ∧
          ∀ x, receiverOf site.method call = some x →
            let exits := a.inliner.exitsOfCall i.table site call callee
            (∀ act ∈ exits, ∃ v, a.inliner.ReturnsAt i.table act v) →
              (∀ act ∈ exits, ∃ e k, a.ExitAt i c pts act (site :: callers) e k) ∧
              ∃ n, c.table.get? n = some (.var x) ∧ ∀ seed budget,
                (c.graph.solve seed budget).converged = true → ∀ l,
                  ((c.graph.solve seed budget).factsAfter b).Holds n l ↔ seed.Holds n l ∨
                    ∃ act ∈ exits, ∃ e k, a.ExitAt i c pts act (site :: callers) e k ∧
                      ((c.graph.solve seed budget).factsAfter e).Holds k l := by
  obtain ⟨i, c, pts, fieldsAt, hrun, hc, hsteps, hcopies, hplaces⟩ := built_places hv hm hs
  refine ⟨i, c, pts, hrun, hc, hsteps, fun b site callers hb => ?_⟩
  obtain ⟨call, callee, method, hcall, hmethod⟩ := hsteps.entered_of_call hb (Or.inr rfl)
  refine ⟨call, callee, hcall, fun x hx => ?_⟩
  intro exits hreturns
  have hexits : ∀ act ∈ exits, ∃ e k, a.ExitAt i c pts act (site :: callers) e k := by
    intro act hact
    obtain ⟨v, hv⟩ := hreturns act hact
    exact exists_exitAt hsteps hplaces hb hcall hcopies hx hact hv
  have hmem : .var x ∈ i.table.pointers :=
    (hsteps.numbered _ (List.mem_of_getElem? hb) call callee hcall).1 x hx
  obtain ⟨n, hn⟩ : ∃ n, c.table.get? n = some (.var x) :=
    ⟨_, PointerTable.get?_of_le hcopies.table (PointerTable.get?_numberOf hmem)⟩
  refine ⟨hexits, n, hn, fun seed budget hconv l => ?_⟩
  have hsolves := (converged_spec hsteps.wellFormed hconv).1
  have hnames := hcopies.names b _ hb
  rw [movesAt_leave hcall hmethod, hx] at hnames
  -- no copy behind the call assigns the variable
  have hsource : sourceOf (c.graph.copiesOf b) n = n := by
    have hsame := get?_sourceOf hnames hn
    rw [origin_withFields_var, origin_of_not_target receiver_not_written_back] at hsame
    exact PointerTable.get?_inj hsame hn
  have hlt : b < c.graph.size := hsteps.size ▸ (List.getElem?_eq_some_iff.1 hb).1
  rw [Graph.solves_iff.1 hsolves b hlt, Graph.holds_transfer, hsource]
  have hreceiver : ∀ act ∈ exits, act.receiver = some x := fun act hact =>
    (mem_exitsOfCall.1 hact).2.1.trans hx
  refine or_congr_right ⟨?_, ?_⟩
  · rintro ⟨e, he, hholds⟩
    obtain ⟨act, hact, hpoint⟩ := exitAt_of_predecessor hsteps hplaces hb hcall hreturns he
    obtain ⟨e', k, hexit⟩ := hexits act hact
    obtain ⟨-, -, hpoint', -⟩ := id hexit
    obtain rfl := (List.getElem?_inj (List.getElem?_eq_some_iff.1 hpoint).1 hsteps.distinct).1
      (hpoint.trans hpoint'.symm)
    exact ⟨act, hact, e, k, hexit,
      (hexit.holds_iff hsteps hcopies (hreceiver act hact) hn hsolves l).1 hholds⟩
  · rintro ⟨act, hact, e, k, hexit, hholds⟩
    exact ⟨e, hexit.predecessor hsteps hb,
      (hexit.holds_iff hsteps hcopies (hreceiver act hact) hn hsolves l).2 hholds⟩

def choice : Call := ⟨some 0, ⟨"A", "choose", ""⟩, [.var 0], none⟩

def chooser : Method :=
  ⟨"A", "choose", "", true, false, none, [0], ["p", "q"],
    [.branch [3], .new 1 "B", .ret (some (.var 1)), .ret (some (.var 0))]⟩

def choosing : Analysis :=
  .of ⟨[], [
    ⟨"Main", "main", "", true, false, none, [], ["a"], [.new 0 "A", .call choice, .ret none]⟩,
    chooser], none⟩ .default

/-- Behind the call there are the allocation of the callee and, by way of the formal, the one before
the call. -/
theorem choosing_result_merged :
    ∃ i c pts, choosing.inliner.run 0 = .ok (some i) ∧ choosing.complete i = .ok c ∧
      choosing.EdgesAreSteps 0 i c pts ∧ ∃ b n : Nat, pts[b]? = some (.leave ⟨0, none, 0⟩ []) ∧
        c.table.get? n = some (.var ⟨0, 0⟩) ∧ ∀ seed l,
          ((c.graph.solve seed none).factsAfter b).Holds n l ↔ seed.Holds n l ∨
            ∃ act ∈ [⟨1, some ⟨0, 0⟩, 1⟩, ⟨1, some ⟨0, 0⟩, 2⟩], ∃ e k,
              choosing.ExitAt i c pts act [⟨0, none, 0⟩] e k ∧
                ((c.graph.solve seed none).factsAfter e).Holds k l := by
  obtain ⟨i, c, pts, hrun, hc, hsteps, hleave⟩ :=
    @result_is_merge_of_returns choosing 0 _ (hierarchy_valid _) rfl (by decide)
  obtain ⟨r, hrun', hexits⟩ : ∃ r, choosing.inliner.run 0 = .ok r ∧ ∃ i ∈ r,
      choosing.inliner.entered i.table ⟨0, none, 0⟩ [] = some (choice, 1) ∧
      choosing.inliner.exitsOfCall i.table ⟨0, none, 0⟩ choice 1 =
        [⟨1, some ⟨0, 0⟩, 1⟩, ⟨1, some ⟨0, 0⟩, 2⟩] ∧
      (choosing.inliner.blockAt i.table ⟨1, some ⟨0, 0⟩, 1⟩).map (·.last) = some 2 ∧
      (choosing.inliner.blockAt i.table ⟨1, some ⟨0, 0⟩, 2⟩).map (·.last) = some 3 :=
    exists_ok (by decide +kernel)
  cases hrun.symm.trans hrun'
  obtain ⟨i, hi, hentered, hexits, htwo, hthree⟩ := hexits
  cases Option.mem_some.1 hi
  have hreturns : ∀ act ∈ choosing.inliner.exitsOfCall i.table ⟨0, none, 0⟩ choice 1,
      ∃ v, choosing.inliner.ReturnsAt i.table act v := by
    rw [hexits]
    obtain ⟨lb, hlb, hlast⟩ := Option.map_eq_some_iff.1 htwo
    obtain ⟨lb', hlb', hlast'⟩ := Option.map_eq_some_iff.1 hthree
    refine List.forall_mem_cons.2 ⟨⟨1, lb, hlb, ?_⟩, List.forall_mem_singleton.2 ⟨0, lb', hlb', ?_⟩⟩
    · rw [hlast]
      rfl
    · rw [hlast']
      rfl
  obtain ⟨b, hb⟩ := hsteps.behind_of_block hsteps.start
  rw [behind, hentered] at hb
  obtain ⟨call, callee, hcall, hmerge⟩ := hleave b _ _ hb
  cases hcall.symm.trans hentered
  obtain ⟨-, n, hn, hmerge⟩ := hmerge ⟨0, 0⟩ rfl hreturns
  rw [hexits] at hmerge
  exact ⟨i, c, pts, hrun, hc, hsteps, b, n, hb, hn, fun seed =>
    hmerge seed none (solve_least_solution hsteps.wellFormed seed).1⟩

end Analysis

end PointsTo
