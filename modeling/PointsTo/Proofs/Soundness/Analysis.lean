import PointsTo.Proofs.Construction
import PointsTo.Proofs.Solver.Walks
import PointsTo.Proofs.Soundness.Answers
import PointsTo.Program.Draft
import PointsTo.Proofs.Soundness.Fields
import PointsTo.Proofs.Soundness.Formals
import PointsTo.Proofs.Soundness.Simulation

/-! What executions observe, the analysis reports. This holds as long as no callee changes a formal
before it returns, since writing formals back replaces what the actuals referred to. -/
namespace PointsTo

open Inliner

def Labeled (p : Program) (h : Recognizer) (o : Object) (label : Int) : Prop :=
  ∃ method, p.method? o.method = some method ∧
    ∃ a ∈ allocations h o.method 0 none method.stmts, a.stmt = o.stmt ∧ a.label = some label

theorem Inliner.stmts_of_execution {inl : Inliner} {entry : MethodId} {xs : List (List Frame)}
    {f : Frame} {fs : List Frame} {s : Stmt} (h : inl.Execution entry xs (f :: fs))
    (hs : inl.stmtAt f = some s) : inl.stmtsOf entry ≠ [] := by
  intro hempty
  have hnone : ∀ ρ, inl.stmtAt ⟨entry, 0, ρ⟩ = none := by
    intro ρ
    rw [stmtAt, hempty]
    rfl
  have hstays : ∀ xs frames, inl.Execution entry xs frames → frames = [⟨entry, 0, .empty⟩] := by
    intro xs frames h
    induction h with
    | start => rfl
    | step _ hstep ih =>
      subst ih
      cases hstep with
      | inner hlocal =>
        obtain ⟨-, s, hs, -⟩ := hlocal.target
        rw [hnone] at hs
        cases hs
      | call hs =>
        rw [hnone] at hs
        cases hs
  cases hstays _ _ h
  rw [hnone] at hs
  cases hs

namespace Analysis

variable {a : Analysis} {o : Outcome} {c : Construction} {i : Inlined} {entry : MethodId}

/-- The execution is at a test hook whose variable holds the object. -/
def Observes (a : Analysis) (frames : List Frame) (id : Int) (object : Object) : Prop :=
  ∃ f fs c v, frames = f :: fs ∧ a.inliner.stmtAt f = some (.call c) ∧
    a.hooks c = some (.test (some id) (some v)) ∧ f.locals v = some object

theorem complete_spec (hi : i.table.FieldFree) (h : a.complete i = .ok c) :
    Sites.ofMethods a.program a.hooks i.methods.toList i.table = .ok (c.sites, c.table) ∧
      i.draft.close i.entry = .ok c.graph ∧ c.stats.truncatedCalls = i.stats.truncated ∧
      c.stats.unresolvedCalls = i.stats.unresolved := by
  obtain ⟨fields, hfields, hsites, hgraph, hstats⟩ := complete_eq_ok h
  have hsame : fields.draft = i.draft ∧ fields.table = i.table := by
    rcases hfields with ⟨-, hfields⟩ | ⟨-, rfl⟩
    · exact propagateFields_of_fieldFree hi hfields
    · exact ⟨rfl, rfl⟩
  rw [hsame.1] at hgraph
  rw [hsame.2] at hsites
  refine ⟨hsites, hgraph, ?_, ?_⟩
  · rw [hstats, counted]
  · rw [hstats, counted]

theorem finish_spec (h : a.finish c = .ok o) :
    ∃ collected, collect c.graph (c.graph.solve (seed a.config.seedPolicy c.sites)
        a.config.maxIterations) c.sites (a.program.declaredTests a.hooks) = .ok collected ∧
      o.answers = collected.answers ∧ o.stats.truncatedCalls = c.stats.truncatedCalls ∧
      o.stats.unresolvedCalls = c.stats.unresolvedCalls ∧ o.stats.converged =
        (c.graph.solve (seed a.config.seedPolicy c.sites) a.config.maxIterations).converged := by
  obtain ⟨collected, hcollected, h⟩ := bind_eq_ok.1 h
  rw [← pure_eq_ok.1 h]
  exact ⟨collected, hcollected, rfl, rfl, rfl, rfl⟩

theorem marked_of_run {inl : Inliner} {st : Inlining} {pts : List Point} {g : Graph}
    {t : PointerTable} {seedFacts : Facts} {budget : Option Nat} {sites : Sites} {ps : List Point}
    {act : Activation} {cs : List Activation} {lb : LocalBlock} {mark : TestMark} {l : Nat}
    {site : Site} {label : Int} (hl : Layout inl t st pts [])
    (hstart : pts[0]? = some (startPoint entry)) (hg : st.draft.close 0 = .ok g)
    (hconverged : (g.solve seedFacts budget).converged = true)
    (hrun : inl.Run t entry ps (.block act cs)) (hlb : inl.blockAt t act = some lb)
    (hmark : lb.mark = some mark)
    (hholds : (seedFacts.run (ps.flatMap (inl.copiesAt t))).Holds mark.traced l)
    (hsite : sites.sites[l]? = some site) (hlabel : site.label = some label) :
    ∃ b, (b, mark) ∈ g.testPoints ∧
      MarkedLabel (g.solve seedFacts budget) sites b mark label := by
  have hf : Frozen st pts g := hl.frozen hg
  obtain ⟨bs, b, hwalk, rfl, hb⟩ := walk_of_run hf hl hstart hrun
  have hinside := (run_of_walk hf hl hstart hwalk).1
  have hlt : b < g.size := hf.size ▸ (List.getElem?_eq_some_iff.1 hb).1
  have hentry : g.entry < g.size := by
    rw [hf.entry]
    omega
  rw [← copies_of_walk hf hl hinside] at hholds
  have hfact := (converged_holds_iff_walk hf.wellFormed hconverged hlt mark.traced l).2
    ⟨bs, hwalk.walk hentry, hholds⟩
  refine ⟨b, ?_, ?_⟩
  · have hblock := hl.content b _ hb
    rw [blockFor, hlb, ← hf.blocks] at hblock
    refine List.mem_filterMap.2 ⟨_, Array.mem_toList_iff.2 (Array.mem_of_getElem? hblock), ?_⟩
    change lb.mark.map (b, ·) = _
    rw [hmark]
    rfl
  · rw [Solution.factsAfter, Array.getD_eq_getD_getElem?] at hfact
    cases hstate : (g.solve seedFacts budget).states[b]? with
    | none =>
      rw [hstate] at hfact
      exact absurd hfact Facts.not_holds_empty
    | some state =>
      rw [hstate] at hfact
      exact ⟨state, hstate, l, hfact, site, hsite, hlabel⟩

/-- An object that an execution observes at a test hook is reported, if no return finds that a
formal lost it. -/
theorem observed_label_reported (hp : a.program.Plain) (hrun : a.run = .ok o)
    (hentry : a.program.entryMethod a.config.entry = .ok entry)
    (hconverged : o.stats.converged = true) (htruncated : o.stats.truncatedCalls = 0)
    (hunresolved : o.stats.unresolvedCalls = 0) {xs : List (List Frame)} {frames : List Frame}
    (hexec : a.inliner.Execution entry xs frames) {id label : Int} {object : Object}
    (hobs : a.Observes frames id object) (hlabeled : Labeled a.program a.hooks object label)
    (hkeeps : ∀ x ∈ xs, a.inliner.KeepsActuals object x) : label ∈ o.answers.labels id := by
  obtain ⟨f, fs, call, v, rfl, hs, hhook, hv⟩ := hobs
  obtain ⟨method, hmethod, al, hal, hstmt, hlabel⟩ := hlabeled
  obtain ⟨c, hc, hfinish⟩ := run_eq_ok hrun hentry
  obtain ⟨collected, hcollect, hanswers, ht, hu, hconv⟩ := finish_spec hfinish
  obtain ⟨entryMethod, hentryMethod, hc⟩ := bind_eq_ok.1 hc
  obtain ⟨inlined, hinlined, hc⟩ := bind_eq_ok.1 hc
  cases inlined with
  | none => exact absurd (stmts_of_run_none hinlined) (stmts_of_execution hexec hs)
  | some i =>
    obtain ⟨c', hcomplete, hc⟩ := bind_eq_ok.1 hc
    obtain rfl := pure_eq_ok.1 hc
    obtain ⟨hsites, hgraph, htr, hun⟩ := complete_spec (run_fieldFree hp hinlined) hcomplete
    obtain ⟨st, pts, hl, hstart, hzero, hdraft, hmethods, hstats⟩ := run_layout hinlined
    obtain ⟨hle, hgenerators, hregistered⟩ := Sites.ofMethods_spec hsites
    rw [hzero, ← hdraft] at hgraph
    let S : Setting := {
      inl := a.inliner
      entry
      numbers := i.table
      table := c'.table
      st
      pts
      seed := seed a.config.seedPolicy c'.sites
      object
      plain := hp
      layout := hl
      exhaustive := by
        rw [InlineStats.Exhaustive, hstats]
        exact ⟨htr.symm.trans (ht.symm.trans htruncated),
          hun.symm.trans (hu.symm.trans hunresolved)⟩
      extended := hle }
    have htracked := S.tracked_of_execution (List.mem_of_getElem? hstart) hexec hkeeps
    obtain ⟨ps, act, cs, lb, n, hrun, hlb, hmark, hmem, hfacts⟩ := htracked.test hs hhook hv
    obtain ⟨l, site, hsite, hsiteLabel, hholds⟩ :=
      hregistered object.method (hmethods ▸ hmem) method hmethod al hal
    have hseed : c'.sites.generators ⊆ seed a.config.seedPolicy c'.sites := by
      cases a.config.seedPolicy with
      | everywhere => exact hgenerators
      | atAllocation => exact OrderedSet.subset_refl _
    rw [method_of_mem_allocations hal, hstmt] at hholds
    obtain ⟨b, hpoint, hmarked⟩ := marked_of_run hl hstart hgraph (hconv.symm.trans hconverged) hrun
      hlb hmark (hfacts l (hholds.mono hseed (PointerTable.le_refl _))) hsite
      (hsiteLabel.trans hlabel)
    rw [hanswers]
    exact mem_collected hcollect hpoint hmarked

def oneCall (result : Option Slot) (tested : Slot) (body : List Stmt) : Analysis :=
  .of ⟨[], [
    ⟨"Main", "main", "", true, false, none, [], ["a", "b"], [
      .call (Hooks.default.allocCall 1), .new 0 "A", .copy 1 (.var 0),
      .call ⟨result, ⟨"A", "f", ""⟩, [.var 1], none⟩, .call (Hooks.default.testCall 1 tested),
      .ret none]⟩,
    ⟨"A", "f", "", true, false, none, [0], ["p"], body⟩], none⟩ .default

def returning : Analysis := oneCall (some 2) 2 [.copy 1 (.var 0), .ret (some (.var 1))]

def assigning : Analysis :=
  oneCall none 1 [.call (Hooks.default.allocCall 2), .new 0 "B", .ret none]

theorem returning_labeled : Labeled returning.program returning.hooks ⟨0, 1⟩ 1 :=
  ⟨_, rfl, ⟨0, 1, 0, "A", some 1⟩, by decide +kernel, rfl, rfl⟩

theorem assigning_labeled : Labeled assigning.program assigning.hooks ⟨0, 1⟩ 1 :=
  ⟨_, rfl, ⟨0, 1, 0, "A", some 1⟩, by decide +kernel, rfl, rfl⟩

theorem returning_observes :
    ∃ xs frames, returning.inliner.Execution 0 xs frames ∧ returning.Observes frames 1 ⟨0, 1⟩ := by
  have hcallee : returning.inliner.callee? ⟨some 2, ⟨"A", "f", ""⟩, [.var 1], none⟩ = some 1 := by
    decide +kernel
  have hstart : returning.inliner.Execution 0 _ _ := .start
  have hhook := Path.step hstart (.inner (.hook rfl (by decide +kernel)))
  have hcopy := Path.step (Path.step hhook (.inner (.new rfl))) (.inner (.copy rfl))
  have hcall := Path.step hcopy (.call rfl (by decide +kernel) hcallee rfl)
  have hreturn := Path.step (Path.step hcall (.inner (.copy rfl))) (.ret rfl rfl)
  exact ⟨_, _, hreturn, _, _, _, 2, rfl, rfl, by decide +kernel, rfl⟩

theorem assigning_observes :
    ∃ xs frames, assigning.inliner.Execution 0 xs frames ∧ assigning.Observes frames 1 ⟨0, 1⟩ := by
  have hcallee : assigning.inliner.callee? ⟨none, ⟨"A", "f", ""⟩, [.var 1], none⟩ = some 1 := by
    decide +kernel
  have hstart : assigning.inliner.Execution 0 _ _ := .start
  have hhook := Path.step hstart (.inner (.hook rfl (by decide +kernel)))
  have hcopy := Path.step (Path.step hhook (.inner (.new rfl))) (.inner (.copy rfl))
  have hcall := Path.step hcopy (.call rfl (by decide +kernel) hcallee rfl)
  have hnew := Path.step (Path.step hcall (.inner (.hook rfl (by decide +kernel))))
    (.inner (.new rfl))
  have hreturn := Path.step hnew (.ret rfl rfl)
  exact ⟨_, _, hreturn, _, _, _, 1, rfl, rfl, by decide +kernel, rfl⟩

theorem returned_label_reported :
    ∃ o xs frames, returning.run = .ok o ∧ returning.inliner.Execution 0 xs frames ∧
      returning.Observes frames 1 ⟨0, 1⟩ ∧ 1 ∈ o.answers.labels 1 := by
  obtain ⟨xs, frames, hexec, hobs⟩ := returning_observes
  have hp : returning.program.Plain := ⟨by decide, by decide, by decide⟩
  have hstats : returning.run.toOption.map (fun o =>
      (o.stats.converged, o.stats.truncatedCalls, o.stats.unresolvedCalls)) =
        some (true, 0, 0) := by
    decide +kernel
  cases hrun : returning.run with
  | error e => simp [hrun, Except.toOption] at hstats
  | ok o =>
    simp only [hrun, Except.toOption, Option.map_some, Option.some.injEq, Prod.mk.injEq] at hstats
    obtain ⟨hconverged, htruncated, hunresolved⟩ := hstats
    have hkeeps := keepsActuals_of_keepsFormals (o := ⟨0, 1⟩) (by decide) hp.formals hexec
    exact ⟨o, xs, frames, rfl, hexec, hobs, observed_label_reported hp hrun (by decide +kernel)
      hconverged htruncated hunresolved hexec hobs returning_labeled hkeeps⟩

/-- The callee gives its formal another object, and the caller's object is not reported. -/
theorem assigned_formal_missed :
    assigning.program.Plain ∧ assigning.program.entryMethod assigning.config.entry = .ok 0 ∧
      Labeled assigning.program assigning.hooks ⟨0, 1⟩ 1 ∧
      ∃ o xs frames, assigning.run = .ok o ∧ o.stats.converged = true ∧
        o.stats.truncatedCalls = 0 ∧ o.stats.unresolvedCalls = 0 ∧
        assigning.inliner.Execution 0 xs frames ∧ assigning.Observes frames 1 ⟨0, 1⟩ ∧
        1 ∉ o.answers.labels 1 := by
  obtain ⟨xs, frames, hexec, hobs⟩ := assigning_observes
  have hstats : assigning.run.toOption.map (fun o =>
      (o.stats.converged, o.stats.truncatedCalls, o.stats.unresolvedCalls, o.answers.labels 1)) =
        some (true, 0, 0, [2]) := by
    decide +kernel
  refine ⟨⟨by decide, by decide, by decide⟩, by decide +kernel, assigning_labeled, ?_⟩
  cases hrun : assigning.run with
  | error e => simp [hrun, Except.toOption] at hstats
  | ok o =>
    simp only [hrun, Except.toOption, Option.map_some, Option.some.injEq, Prod.mk.injEq] at hstats
    obtain ⟨hconverged, htruncated, hunresolved, hlabels⟩ := hstats
    refine ⟨o, xs, frames, rfl, hconverged, htruncated, hunresolved, hexec, hobs, ?_⟩
    rw [hlabels]
    decide

end Analysis

end PointsTo
