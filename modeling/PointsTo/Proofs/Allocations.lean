import PointsTo.Proofs.Construction
import PointsTo.Proofs.Registry
import PointsTo.Proofs.Solver.LeastSolution
import PointsTo.Proofs.Solver.Unassigned

/-! Lowering the statements and registering the allocation sites agree on every `new` statement. Its
own pointer is assigned nowhere, so it refers to the site of the statement from the first step of
the solver to the last. -/
namespace PointsTo

open Inliner

variable {t : PointerTable} {m : MethodId} {x : Nat} {lhs : Slot} {type : String} {n l : Nat}
  {p : Point} {pair : Pointer × Pointer}

def Pointer.Assignable : Pointer → Prop
  | .allocation .. => False
  | _ => True

theorem Stmt.assignable_of_lowering {s : Stmt} {receiver : Option Var}
    (h : s.lowering m receiver x = some pair) : pair.1.Assignable := by
  cases s with
  | copy lhs rhs =>
    cases rhs with
    | var rhs =>
      cases h
      trivial
    | const value => cases h
  | load lhs base field =>
    cases base <;> · cases h; trivial
  | store base field rhs =>
    cases rhs with
    | var rhs => cases base <;> · cases h; trivial
    | const value => cases base <;> cases h
  | new lhs type =>
    cases h
    trivial
  | ret value =>
    rcases value with _ | _ | value
    · cases h
    · obtain ⟨r, -, rfl⟩ := Option.map_eq_some_iff.1 h
      trivial
    · cases h
  | _ => cases h

theorem assignable_withFields {fieldsAt : Var → List FieldRef} {pair' : Pointer × Pointer}
    (h : pair.1.Assignable) (hpair' : pair' ∈ withFields fieldsAt pair) :
    pair'.1.Assignable := by
  obtain ⟨target, source⟩ := pair
  cases target with
  | var v =>
    cases source with
    | var w =>
      rcases List.mem_cons.1 hpair' with rfl | hpair'
      · trivial
      · obtain ⟨f, -, rfl⟩ := List.mem_map.1 hpair'
        trivial
    | _ =>
      obtain rfl := List.mem_singleton.1 hpair'
      trivial
  | _ =>
    obtain rfl := List.mem_singleton.1 hpair'
    exact h

namespace Inliner

variable {inl : Inliner} {entry : MethodId} {i : Inlined}

theorem assignable_ofVars {pairs : List (Var × Var)} (h : pair ∈ Pointer.ofVars pairs) :
    pair.1.Assignable := by
  obtain ⟨v, -, rfl⟩ := List.mem_map.1 h
  trivial

theorem assignable_movesAt (h : pair ∈ inl.movesAt t p) : pair.1.Assignable := by
  cases p with
  | block a cs =>
    rw [movesAt] at h
    cases hb : inl.blockAt t a with
    | none =>
      rw [hb] at h
      cases h
    | some lb =>
      rw [hb] at h
      obtain ⟨x, -, hx⟩ := List.mem_filterMap.1 h
      obtain ⟨s, -, hs⟩ := Option.bind_eq_some_iff.1 hx
      exact s.assignable_of_lowering hs
  | enter a cs =>
    cases he : inl.entered t a cs with
    | none =>
      rw [movesAt, he] at h
      cases h
    | some found =>
      obtain ⟨method, hm, -⟩ := method_of_entered he
      rw [movesAt_enter he hm] at h
      exact assignable_ofVars h
  | leave a cs =>
    cases he : inl.entered t a cs with
    | none =>
      rw [movesAt, he] at h
      cases h
    | some found =>
      obtain ⟨method, hm, -⟩ := method_of_entered he
      rw [movesAt_leave he hm] at h
      exact assignable_ofVars h

def Lowered (inl : Inliner) (t : PointerTable) (m : MethodId) : Prop :=
  ∃ receiver, ∀ u, t ≤ u → (methodBlocks inl.hooks m (inl.stmtsOf m) receiver u).2 = u

theorem lowered_of_splice {w : PendingCall} {st st' : Inlining} {inst : Instance}
    (h : inl.splice w st = .ok (inst, st')) (hst : ∀ m ∈ st.methods, inl.Lowered st.table m) :
    ∀ m ∈ st'.methods, inl.Lowered st'.table m := by
  obtain ⟨hle, -, hmethods, hspec⟩ := splice_spec h
  intro m hm
  rw [hmethods] at hm
  rcases OrderedSet.mem_insert.1 hm with rfl | hm
  · exact ⟨_, fun u hu => (hspec u hu).1⟩
  · obtain ⟨receiver, hreceiver⟩ := hst m hm
    exact ⟨receiver, fun u hu => hreceiver u (PointerTable.le_trans hle hu)⟩

theorem run_lowered (h : inl.run entry = .ok (some i)) :
    ∀ m ∈ i.methods, inl.Lowered i.table m := by
  obtain ⟨-, root, st₁, st, hroot, hst, _, rfl⟩ := run_expands h
  refine hst.preserves (P := fun st => ∀ m ∈ st.methods, inl.Lowered st.table m)
    (fun w st inst st' hw hmethods => lowered_of_splice hw hmethods) ?_
  obtain ⟨-, -, -, hmethods, hspec⟩ := instantiate_spec hroot
  intro m hm
  rw [hmethods] at hm
  obtain rfl := (OrderedSet.mem_insert.1 hm).resolve_right (OrderedSet.not_mem_empty m)
  exact ⟨none, fun u hu => (hspec u hu).1⟩

theorem Lowered.numbered (h : inl.Lowered t m)
    (hs : (inl.stmtsOf m)[x]? = some (.new lhs type)) {label : Option Int} :
    Sites.Numbered t ⟨m, x, lhs, type, label⟩ := by
  obtain ⟨receiver, hreceiver⟩ := h
  have hdenotes := effect_denotes (hreceiver t t.le_refl) hs
  exact ⟨⟨_, hdenotes.2⟩, _, hdenotes.1⟩

end Inliner

namespace Analysis

variable {a : Analysis} {entry : MethodId} {i : Inlined} {c : Construction} {pts : List Point}
  {fieldsAt : Var → List FieldRef}

/-- No copy of the graph has the pointer of an allocation as its target. -/
theorem Copies.unassigned (hsteps : a.EdgesAreSteps entry i c pts) (h : a.Copies i c pts fieldsAt)
    (hn : c.table.get? n = some (.allocation m x)) : c.graph.Unassigned n := by
  rintro b copy hcopy rfl
  obtain ⟨block, hblock, -⟩ := Graph.mem_copiesOf.1 hcopy
  have hb : b < pts.length := by
    rw [hsteps.size]
    exact (Array.getElem?_eq_some_iff.1 hblock).1
  have hnames := h.names b _ (List.getElem?_eq_getElem hb)
  obtain ⟨pair', hpair', hname⟩ := exists_name_of_copy hnames hcopy
  obtain ⟨pair, hpair, hmem⟩ := List.mem_flatMap.1 hpair'
  have hassignable := assignable_withFields (assignable_movesAt hpair) hmem
  rw [Option.some.inj (hname.1.symm.trans hn)] at hassignable
  exact hassignable

def IsNew (a : Analysis) (i : Inlined) (m : MethodId) (x : Nat) : Prop :=
  m ∈ i.methods ∧ ∃ lhs type, (a.inliner.stmtsOf m)[x]? = some (.new lhs type)

structure Keeps (g : Graph) (seed : Facts) (budget : Option Nat) (n id : Nat) : Prop where
  always : ∀ fuel, ∀ b < g.size,
    ((g.iterate seed budget fuel (.start g seed)).2.stateOf b).sitesOf n = [id]
  states : (g.solve seed budget).states.size = g.size
  outcome : ∀ b < g.size, ((g.solve seed budget).factsAfter b).sitesOf n = [id]

/-- Every `new` statement of an inlined method has one site, and there are no others. Registering
them numbers no pointer, and the pointer of a statement keeps its site, with either seed and any
budget. -/
structure Allocates (a : Analysis) (i : Inlined) (c : Construction) : Prop where
  registered : ∀ m x, a.IsNew i m x →
    ∃! id : Nat, ∃ site : Site, c.sites.sites[id]? = some site ∧ site.method = m ∧ site.stmt = x
  only : ∀ (id : Nat) (site : Site), c.sites.sites[id]? = some site →
    site.id = id ∧ site.method ∈ i.methods ∧
      ∃ lhs, (a.inliner.stmtsOf site.method)[site.stmt]? = some (.new lhs site.type)
  numbered : ∀ u, i.table ≤ u →
    Sites.ofMethods a.program a.hooks i.methods.toList u = .ok (c.sites, u)
  pointer : ∀ (id : Nat) (site : Site), c.sites.sites[id]? = some site →
    ∃ n, i.table.get? n = some (.allocation site.method site.stmt) ∧
      c.table.get? n = some (.allocation site.method site.stmt) ∧
        ∀ policy budget, Keeps c.graph (seed policy c.sites) budget n id

/-- What is registered for an inlined program, with every table that extends that of inlining. -/
theorem sites_enumerate (hrun : a.inliner.run entry = .ok (some i)) (h : a.complete i = .ok c) :
    c.sites.Enumerates i.table (Sites.allocationsOf a.program a.hooks i.methods.toList) ∧
      i.table ≤ c.table ∧ ∀ u, i.table ≤ u →
        Sites.ofMethods a.program a.hooks i.methods.toList u = .ok (c.sites, u) := by
  obtain ⟨fields, hfields, hsites, -⟩ := complete_eq_ok h
  obtain ⟨fieldsAt, hexpands, -⟩ := expands_of_fields hfields
  have hnumbered : ∀ al ∈ Sites.allocationsOf a.program a.hooks i.methods.toList,
      Sites.Numbered i.table al := by
    intro al hal
    obtain ⟨hm, hs⟩ := Sites.mem_allocationsOf.1 ⟨al.label, hal⟩
    exact (run_lowered hrun al.method hm).numbered hs
  have hfixed := Sites.registerAll_of_numbered (s := .empty) hnumbered
  have hregistered := Sites.registerAll_enumerates (Sites.empty_enumerates i.table)
    (Sites.allocationsOf a.program a.hooks i.methods.toList)
  -- a larger table gives the same numbers, so the sites do not depend on it
  have hstable : ∀ u, i.table ≤ u → Sites.registerAll .empty u
      (Sites.allocationsOf a.program a.hooks i.methods.toList) =
        ((Sites.registerAll .empty i.table
          (Sites.allocationsOf a.program a.hooks i.methods.toList)).1, u) := by
    intro u hu
    exact (Sites.numbers_registerAll _ _).stable i.table u (hfixed.symm ▸ hu)
  have hresult := (Sites.ofMethods_eq_registerAll hsites).trans (hstable _ hexpands.table)
  obtain ⟨hcsites, hctable⟩ := Prod.mk.inj hresult
  rw [hfixed, ← hcsites, List.nil_append] at hregistered
  refine ⟨hregistered, hctable ▸ hexpands.table, fun u hu => ?_⟩
  have hmethods : ∀ m ∈ i.methods.toList, (a.program.method? m).isSome = true := run_methods hrun
  obtain ⟨r, hr⟩ := Sites.ofMethods_ok hmethods a.hooks u
  rw [hr, Sites.ofMethods_eq_registerAll hr, hstable u hu, hcsites]

theorem table_of_sites {fields : Propagated} (hrun : a.inliner.run entry = .ok (some i))
    (hc : a.complete i = .ok c)
    (hfields : (a.config.fieldCopropagation = true ∧
        propagateFields i.draft i.table = .ok fields) ∨
      (a.config.fieldCopropagation = false ∧ fields = ⟨i.draft, i.table, 0, []⟩))
    (hsites : Sites.ofMethods a.program a.hooks i.methods.toList fields.table =
      .ok (c.sites, c.table)) : c.table = fields.table := by
  obtain ⟨-, -, hnumbers⟩ := sites_enumerate hrun hc
  obtain ⟨fieldsAt, hexpands, -⟩ := expands_of_fields hfields
  have hboth := hsites.symm.trans (hnumbers _ hexpands.table)
  exact (Prod.mk.inj (Except.ok.inj hboth)).2

/-- The seed gives the pointer of an allocation the site of the allocation and no other. -/
theorem seed_holds_allocation {s : Sites} {as : List Allocation} {al : Allocation} {id : Nat}
    (hs : s.Enumerates t as) (hd : (as.map fun al => (al.method, al.stmt)).Nodup)
    (hal : as[id]? = some al) (hn : t.get? n = some (.allocation al.method al.stmt))
    (policy : SeedPolicy) : (seed policy s).Holds n l ↔ l = id := by
  have hgenerators : s.generators.Holds n l ↔ l = id := by
    rw [hs.generators]
    constructor
    · rintro ⟨al', hal', hn'⟩
      have hsame := Pointer.allocation.inj (Option.some.inj (hn.symm.trans hn'))
      have hid := (List.getElem?_eq_some_iff.1 hal).1
      rw [← List.length_map (f := fun al : Allocation => (al.method, al.stmt))] at hid
      refine ((List.getElem?_inj hid hd).1 ?_).symm
      rw [List.getElem?_map, List.getElem?_map, hal, hal', Option.map_some, Option.map_some,
        hsame.1, hsame.2]
    · rintro rfl
      exact ⟨al, hal, hn⟩
  cases policy with
  | atAllocation => exact hgenerators
  | everywhere =>
    change s.seed.Holds n l ↔ _
    rw [← hgenerators, hs.seed, hs.generators]
    refine exists_congr fun al' => and_congr_right fun _ => or_iff_left ?_
    rw [hn]
    simp

theorem keeps_of_unassigned {g : Graph} {s : Facts} {id : Nat} (hn : g.Unassigned n)
    (hs : ∀ l, s.Holds n l ↔ l = id) (budget : Option Nat) : Keeps g s budget n id := by
  have halways : ∀ fuel, ∀ b < g.size,
      ((g.iterate s budget fuel (.start g s)).2.stateOf b).sitesOf n = [id] := by
    intro fuel b hb
    have hkeeps := (Graph.iterate_keepsSeed hn s budget fuel).2 b hb
    exact Facts.sitesOf_eq_singleton fun l => (hkeeps l).trans (hs l)
  have hend : (g.solve s budget).states =
      (g.iterate s budget (g.stepBound s) (.start g s)).2.states := by
    rw [Graph.solve]
  constructor
  case always => exact halways
  case states =>
    rw [hend]
    exact (Graph.iterate_keepsSeed hn s budget _).1
  case outcome =>
    intro b hb
    rw [Solution.factsAfter, hend]
    exact halways _ b hb

theorem complete_allocates (hrun : a.inliner.run entry = .ok (some i)) (h : a.complete i = .ok c) :
    a.Allocates i c := by
  obtain ⟨hs, hle, hnumbered⟩ := sites_enumerate hrun h
  obtain ⟨pts, fieldsAt, hsteps, hcopies⟩ := complete_edgesAreSteps hrun h
  have hd := Sites.allocationsOf_nodup a.program a.hooks i.methods.toList
  constructor
  case registered =>
    rintro m x ⟨hm, lhs, type, hx⟩
    obtain ⟨label, hal⟩ : ∃ label, ⟨m, x, lhs, type, label⟩ ∈
        Sites.allocationsOf a.program a.hooks i.methods.toList :=
      Sites.mem_allocationsOf.2 ⟨OrderedSet.mem_def.1 hm, hx⟩
    obtain ⟨id, hid⟩ := List.mem_iff_getElem?.1 hal
    refine ⟨id, ⟨_, hs.site_iff.2 ⟨_, hid, rfl⟩, rfl, rfl⟩, ?_⟩
    rintro id' ⟨site, hsite, rfl, rfl⟩
    obtain ⟨al, hid', rfl⟩ := hs.site_iff.1 hsite
    have hlt := (List.getElem?_eq_some_iff.1 hid').1
    rw [← List.length_map (f := fun al : Allocation => (al.method, al.stmt))] at hlt
    refine (List.getElem?_inj hlt hd).1 ?_
    rw [List.getElem?_map, List.getElem?_map, hid, hid']
    rfl
  case only =>
    intro id site hsite
    obtain ⟨al, hal, rfl⟩ := hs.site_iff.1 hsite
    obtain ⟨hm, hx⟩ := Sites.mem_allocationsOf.1 ⟨al.label, List.mem_of_getElem? hal⟩
    exact ⟨rfl, hm, al.lhs, hx⟩
  case numbered => exact hnumbered
  case pointer =>
    intro id site hsite
    obtain ⟨al, hal, rfl⟩ := hs.site_iff.1 hsite
    obtain ⟨n, hn⟩ := (hs.numbered al (List.mem_of_getElem? hal)).1
    have hn' := PointerTable.get?_of_le hle hn
    refine ⟨n, hn, hn', fun policy budget => ?_⟩
    exact keeps_of_unassigned (hcopies.unassigned hsteps hn')
      (fun l => seed_holds_allocation hs hd hal hn policy) budget

/-- The two scans of the statements never drift apart, whatever the program, the hooks, the resolver
and the settings are. -/
theorem constructFrom_allocates (a : Analysis) (entry : MethodId) :
    (∀ c, a.constructFrom entry = .ok c →
      (a.inliner.run entry = .ok none ∧ c.sites = .empty ∧ c.graph = .empty) ∨
        ∃ i, a.inliner.run entry = .ok (some i) ∧ a.Allocates i c) ∧
    (a.resolver.Valid a.program → ∀ method, a.program.method? entry = some method →
      ∃ c, a.constructFrom entry = .ok c) := by
  refine ⟨fun c h => ?_, fun hv method hm => ?_⟩
  · rcases constructFrom_eq_ok h with ⟨hrun, events, rfl⟩ | ⟨i, c', hrun, hc, events, rfl⟩
    · exact Or.inl ⟨hrun, rfl, rfl⟩
    · have hallocates := complete_allocates hrun hc
      exact Or.inr ⟨i, hrun, hallocates.registered, hallocates.only, hallocates.numbered,
        hallocates.pointer⟩
  · exact constructFrom_ok hv hm

def building : Analysis :=
  .of ⟨[], [
    ⟨"Main", "main", "", true, false, none, [], ["a", "b"], [.new 0 "A",
      .call ⟨none, ⟨"B", "make", ""⟩, [], none⟩, .call ⟨none, ⟨"B", "make", ""⟩, [], none⟩,
      .ret none, .new 1 "A"]⟩,
    ⟨"B", "make", "", true, false, none, [], ["x"], [.new 0 "B", .ret none]⟩], none⟩ .default

theorem building_allocates :
    ∃ i c, building.inliner.run 0 = .ok (some i) ∧ building.constructFrom 0 = .ok c ∧
      c.sites.size = 3 ∧ c.stats.instances = 3 ∧ building.Allocates i c := by
  obtain ⟨hallocates, hok⟩ := constructFrom_allocates building 0
  obtain ⟨c, hc⟩ := hok (hierarchy_valid _) _ rfl
  obtain ⟨c', hc', hsize, hinstances⟩ : ∃ c, building.constructFrom 0 = .ok c ∧
    c.sites.size = 3 ∧ c.stats.instances = 3 := exists_ok (by decide +kernel)
  cases hc.symm.trans hc'
  rcases hallocates c hc with ⟨-, hempty, -⟩ | ⟨i, hrun, hi⟩
  · rw [hempty] at hsize
    cases hsize
  · exact ⟨i, c, hrun, hc, hsize, hinstances, hi⟩

end Analysis

end PointsTo
