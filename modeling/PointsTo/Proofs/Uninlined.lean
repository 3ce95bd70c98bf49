import PointsTo.Proofs.Collected
import PointsTo.Proofs.Registered
import PointsTo.Proofs.Renaming.Inlining

/-! Methods without instances. An analysis finds them by name and asks whether they have a body, but
it does not read their statements, apart from the test points that they declare. -/
namespace PointsTo

open Inliner

/-- The programs differ at most in the statements of methods and the names of their locals, and the
same methods have bodies. -/
structure Program.SameOutside (p q : Program) : Prop where
  classes : q.classes = p.classes
  entry : q.entry = p.entry
  methods : List.Forall₂ Method.SameOutside p.methods q.methods

section Lookup

variable {p q : Program} {method method' : Method} {m : MethodId}

theorem Method.SameOutside.owner (h : method.SameOutside method') :
    method'.owner = method.owner := by
  rw [h.outside]

theorem Method.SameOutside.name (h : method.SameOutside method') : method'.name = method.name := by
  rw [h.outside]

theorem findIdx?_forall₂ {α : Type} {R : α → α → Prop} {f : α → Bool} {xs ys : List α}
    (hf : ∀ x y, R x y → f y = f x) (h : List.Forall₂ R xs ys) : ys.findIdx? f = xs.findIdx? f := by
  induction h with
  | nil => rfl
  | cons hxy _ ih => rw [List.findIdx?_cons, List.findIdx?_cons, hf _ _ hxy, ih]

namespace Program.SameOutside

variable (h : p.SameOutside q)

include h

theorem method? (hm : p.method? m = some method) :
    ∃ method', q.method? m = some method' ∧ method.SameOutside method' :=
  getElem?_forall₂ h.methods hm

theorem findMethod (name : String) : q.findMethod name = p.findMethod name := by
  unfold Program.findMethod
  apply bind_congr
  intro on
  apply findIdx?_forall₂ ?_ h.methods
  intro method method' hsame
  rw [hsame.owner, hsame.name]

theorem entryMethod (given : Option String) : q.entryMethod given = p.entryMethod given := by
  have hmain : q.methods.findIdx? (fun m => decide (m.name = "main" ∧ m.isStatic)) =
      p.methods.findIdx? fun m => decide (m.name = "main" ∧ m.isStatic) := by
    apply findIdx?_forall₂ ?_ h.methods
    intro method method' hsame
    rw [hsame.outside]
  unfold Program.entryMethod
  simp only [h.entry, h.findMethod, hmain]

theorem methodIn (r : MethodRef) (owner : String) : q.methodIn r owner = p.methodIn r owner := by
  apply findIdx?_forall₂ ?_ h.methods
  intro method method' hsame
  rw [hsame.outside]
  rfl

theorem resolveFrom (r : MethodRef) (steps : Nat) (owner : String) :
    q.resolveFrom r steps owner = p.resolveFrom r steps owner := by
  have hsuper := Program.superclassOf_congr h.classes
  induction steps generalizing owner with
  | zero => rfl
  | succ steps ih =>
    have hinner : q.resolveFrom r steps = p.resolveFrom r steps := funext ih
    rw [Program.resolveFrom, Program.resolveFrom, h.methodIn, hsuper, hinner]

theorem hierarchy (r : MethodRef) : Resolver.hierarchy q r = Resolver.hierarchy p r := by
  rw [Resolver.hierarchy, Resolver.hierarchy, h.classes, h.resolveFrom]

end Program.SameOutside

end Lookup

namespace Sites

variable {p q : Program} {h : Recognizer} {methods : List MethodId}
  (hsame : ∀ m ∈ methods, q.method? m = p.method? m)

include hsame

theorem ofMethods_congr (t : PointerTable) : ofMethods q h methods t = ofMethods p h methods t := by
  have hfound : ((OrderedSet.ofList methods).toList.mapM fun m => do
      return allocations h m 0 none (← q.method m).stmts) =
        (OrderedSet.ofList methods).toList.mapM fun m => do
          return allocations h m 0 none (← p.method m).stmts := by
    apply mapM_congr
    intro m hm
    rw [Program.method, Program.method, hsame m (OrderedSet.mem_ofList.1 hm)]
  rw [ofMethods, ofMethods, hfound]

theorem events_congr (s : Sites) : s.events q h methods = s.events p h methods := by
  have hhooks : ((OrderedSet.ofList methods).toList.flatMap fun m =>
      (q.method? m).elim [] fun method => (unlabeledHooks h method.stmts).map fun i =>
        Event.unlabeledAllocation s!"{method.qualifiedName}:{i}") =
      (OrderedSet.ofList methods).toList.flatMap fun m =>
        (p.method? m).elim [] fun method => (unlabeledHooks h method.stmts).map fun i =>
          Event.unlabeledAllocation s!"{method.qualifiedName}:{i}" := by
    apply List.flatMap_congr
    intro m hm
    rw [hsame m (OrderedSet.mem_ofList.1 hm)]
  rw [events, events, hhooks]

end Sites

namespace Analysis

variable {a : Analysis} {entry : MethodId} {i : Inlined} {c : Construction} {q : Program}

def Reads (a : Analysis) (m : MethodId) : Prop :=
  ∃ entry, a.program.entryMethod a.config.entry = .ok entry ∧
    (m = entry ∨ ∃ i, a.inliner.run entry = .ok (some i) ∧ m ∈ i.methods)

theorem complete_congr (hsame : ∀ m ∈ i.methods, q.method? m = a.program.method? m) :
    (a.onProgram q).complete i = a.complete i := by
  have hsites : ∀ t, Sites.ofMethods q a.hooks i.methods.toList t =
      Sites.ofMethods a.program a.hooks i.methods.toList t := Sites.ofMethods_congr hsame
  have hevents : ∀ s : Sites, s.events q a.hooks i.methods.toList =
      s.events a.program a.hooks i.methods.toList := Sites.events_congr hsame
  unfold complete
  simp only [onProgram, hsites, hevents]

/-- The inliner asks for nothing that differs. -/
theorem mirrors_of_reads (hq : a.program.SameOutside q)
    (hr : ∀ r, a.resolver q r = a.resolver a.program r)
    (hsame : ∀ m, a.Reads m → q.method? m = a.program.method? m) :
    Mirrors (.refl _) a.Reads a.inliner (a.onProgram q).inliner := by
  constructor
  case hooks => rfl
  case maxDepth => rfl
  case resolver =>
    intro r
    have hid : (Option.map (Equiv.refl MethodId)) = id := Option.map_id
    rw [hid]
    exact hr r
  case outside => exact fun m method hm => hq.method? hm
  case inside => exact fun m method hm hmethod => (hsame m hm).trans hmethod

theorem constructFrom_congr (hq : a.program.SameOutside q)
    (hr : ∀ r, a.resolver q r = a.resolver a.program r)
    (hsame : ∀ m, a.Reads m → q.method? m = a.program.method? m)
    (hentry : a.program.entryMethod a.config.entry = .ok entry)
    (hc : a.constructFrom entry = .ok c) : (a.onProgram q).constructFrom entry = .ok c := by
  have hreads : a.Reads entry := ⟨entry, hentry, Or.inl rfl⟩
  obtain ⟨method, hm, hc⟩ := bind_eq_ok.1 hc
  obtain ⟨found, hrun, hc⟩ := bind_eq_ok.1 hc
  have hinlined : ∀ i, found = some i → ∀ m ∈ i.methods, a.Reads m := by
    rintro i rfl m hmem
    exact ⟨entry, hentry, Or.inr ⟨i, hrun, hmem⟩⟩
  have hm' : q.method entry = .ok method :=
    orFault_eq_ok.2 ((hsame entry hreads).trans (orFault_eq_ok.1 hm))
  have hrun' := run_rename (mirrors_of_reads hq hr hsame) hrun hreads hinlined
  have hsamefound : found.map (Inlined.rename (.refl _)) = found := by
    have hid : Inlined.rename (.refl _) = id := funext Inlined.rename_refl
    rw [hid, Option.map_id, id]
  rw [hsamefound] at hrun'
  cases found with
  | none =>
    cases hc
    exact constructFrom_of_none (a := a.onProgram q) hm' hrun'
  | some i =>
    obtain ⟨c, hcomplete, hc⟩ := bind_eq_ok.1 hc
    cases hc
    have hsamecomplete : (a.onProgram q).complete i = a.complete i :=
      complete_congr fun m hmem => hsame m (hinlined i rfl m hmem)
    exact constructFrom_of_some (a := a.onProgram q) hm' hrun' (hsamecomplete.trans hcomplete)

/-- The outcomes are about the same construction and solution, and agree on all test points that
both programs declare. -/
structure SameAnswers (a : Analysis) (q : Program) (o o' : Outcome) : Prop where
  construction : o'.construction = o.construction
  solution : o'.solution = o.solution
  answers : ∀ id ∈ a.program.declaredTests a.hooks, id ∈ q.declaredTests a.hooks →
    o'.answers.get? id = o.answers.get? id

theorem get?_of_declared {g : Graph} {s : Solution} {sites : Sites}
    {declared declared' : OrderedSet Int} {collected collected' : Collected} {id : Int}
    (h : collect g s sites declared = .ok collected)
    (h' : collect g s sites declared' = .ok collected') (hid : id ∈ declared)
    (hid' : id ∈ declared') : collected'.answers.get? id = collected.answers.get? id := by
  apply Option.ext
  intro ls
  rw [get?_collected h, get?_collected h']
  simp only [hid, hid', or_true, true_and]

theorem finish_sameAnswers {o o' : Outcome} (h : a.finish c = .ok o)
    (h' : (a.onProgram q).finish c = .ok o') : a.SameAnswers q o o' := by
  obtain ⟨collected, hcollected, heq⟩ := bind_eq_ok.1 h
  obtain rfl := pure_eq_ok.1 heq
  obtain ⟨collected', hcollected', heq⟩ := bind_eq_ok.1 h'
  obtain rfl := pure_eq_ok.1 heq
  constructor
  case construction => rfl
  case solution => rfl
  case answers => exact fun id hid hid' => get?_of_declared hcollected hcollected' hid hid'

/-- Whatever stands in the bodies that are not inlined, the analysis builds the same graph, table
and sites, solves them alike, and answers what both programs declare alike. It fails alike, too,
unless the resolver names a method that is not there. -/
theorem run_same_outside (hq : a.program.SameOutside q)
    (hr : a.resolver = .hierarchy ∨ ∀ r, a.resolver q r = a.resolver a.program r)
    (hsame : ∀ m, a.Reads m → q.method? m = a.program.method? m) :
    (∀ e, a.run = .error e → (a.onProgram q).run = .error e ∨
      ¬ a.resolver.Valid a.program ∧ ∃ f, e = .fault f) ∧
      ∀ o, a.run = .ok o → ∃ o', (a.onProgram q).run = .ok o' ∧ a.SameAnswers q o o' := by
  have hresolver : ∀ r, a.resolver q r = a.resolver a.program r := by
    rcases hr with hr | hr
    · rw [hr]
      exact hq.hierarchy
    · exact hr
  have hentries := hq.entryMethod a.config.entry
  constructor
  · intro e he
    rcases a.construct_cases with ⟨e', hvalid, hc⟩ | ⟨e', hvalid, hentry, hc⟩ |
      ⟨entry, -, hentry, hc⟩
    · rw [run_of_construct_error hc] at he
      cases he
      left
      exact run_of_construct_error (construct_of_config_error (a := a.onProgram q) hvalid)
    · rw [run_of_construct_error hc] at he
      cases he
      left
      apply run_of_construct_error
      exact construct_of_entry_error (a := a.onProgram q) hvalid (hentries.trans hentry)
    · cases hfrom : a.constructFrom entry with
      | ok c =>
        obtain ⟨o, ho, -⟩ := run_of_construct (hc.trans (faulty_eq_ok.2 hfrom))
        rw [ho] at he
        cases he
      | error f =>
        have hinvalid := not_valid_of_fault hentry hfrom
        rw [hfrom] at hc
        rw [run_of_construct_error hc] at he
        right
        cases he
        exact ⟨hinvalid, f, rfl⟩
  · intro o ho
    obtain ⟨c, hconstruct, hfinish⟩ := bind_eq_ok.1 ho
    rcases a.construct_cases with ⟨e, -, hc⟩ | ⟨e, -, -, hc⟩ | ⟨entry, hvalid, hentry, hc⟩
    · rw [hc] at hconstruct
      cases hconstruct
    · rw [hc] at hconstruct
      cases hconstruct
    · have hfrom := faulty_eq_ok.1 (hc.symm.trans hconstruct)
      have hconstruct' : (a.onProgram q).construct = .ok c := by
        rw [construct_of_entry (a := a.onProgram q) hvalid (hentries.trans hentry)]
        exact faulty_eq_ok.2 (constructFrom_congr hq hresolver hsame hentry hfrom)
      obtain ⟨o', ho', hfinish'⟩ := run_of_construct hconstruct'
      exact ⟨o', ho', finish_sameAnswers (faulty_eq_ok.1 hfinish) hfinish'⟩

def withBodies (deep uncalled : List Stmt) : Program :=
  ⟨[], [
    ⟨"Main", "main", "", true, false, none, [], ["a"], [.call (Hooks.default.allocCall 1),
      .new 0 "A", .call ⟨none, ⟨"A", "deep", ""⟩, [.var 0], none⟩,
      .call (Hooks.default.testCall 1 0), .ret none]⟩,
    ⟨"A", "deep", "", true, false, none, [0], ["x"], deep⟩,
    ⟨"A", "uncalled", "", true, false, none, [], ["x"], uncalled⟩], none⟩

def shallow : Analysis :=
  .of (withBodies [.ret none] [.call (Hooks.default.testCall 3 0)])
    { Config.default with maxInlineDepth := 0 }

def otherBodies : Program :=
  withBodies [.call (Hooks.default.allocCall 2), .new 0 "B", .call (Hooks.default.testCall 2 0),
    .call ⟨none, ⟨"A", "uncalled", ""⟩, [], none⟩, .ret none]
    [.call (Hooks.default.testCall 4 0), .call (Hooks.default.testCall 3 0), .ret none]

theorem shallow_reads {m : MethodId} (h : shallow.Reads m) : m = 0 := by
  obtain ⟨entry, hentry, hm⟩ := h
  have hzero : shallow.program.entryMethod shallow.config.entry = .ok 0 := by decide +kernel
  cases hzero.symm.trans hentry
  rcases hm with rfl | ⟨i, hrun, hm⟩
  · rfl
  · obtain ⟨found, hfound, hmethods⟩ : ∃ found, shallow.inliner.run 0 = .ok found ∧
      (found.map fun i => i.methods.toList) = some [0] := exists_ok (by decide +kernel)
    cases hfound.symm.trans hrun
    have honly : i.methods.toList = [0] := Option.some.inj hmethods
    rw [OrderedSet.mem_def, honly] at hm
    exact List.mem_singleton.1 hm

theorem shallow_same_outside :
    ∃ o o', shallow.run = .ok o ∧ (shallow.onProgram otherBodies).run = .ok o' ∧
      o.answers.size = 2 ∧ o'.answers.size = 4 ∧ shallow.SameAnswers otherBodies o o' := by
  have houtside : shallow.program.SameOutside otherBodies :=
    ⟨rfl, rfl, .cons ⟨rfl, rfl⟩ (.cons ⟨rfl, rfl⟩ (.cons ⟨rfl, rfl⟩ .nil))⟩
  have hreads : ∀ m, shallow.Reads m → otherBodies.method? m = shallow.program.method? m := by
    intro m hm
    rw [shallow_reads hm]
    rfl
  obtain ⟨-, hok⟩ := run_same_outside houtside (Or.inl rfl) hreads
  obtain ⟨o, ho, hsize⟩ : ∃ o, shallow.run = .ok o ∧ o.answers.size = 2 :=
    exists_ok (by decide +kernel)
  obtain ⟨o', ho', hsame⟩ := hok o ho
  obtain ⟨u, hu, hsize'⟩ : ∃ o, (shallow.onProgram otherBodies).run = .ok o ∧
    o.answers.size = 4 := exists_ok (by decide +kernel)
  obtain rfl : u = o' := Except.ok.inj (hu.symm.trans ho')
  exact ⟨o, u, ho, hu, hsize, hsize', hsame⟩

end Analysis

end PointsTo
