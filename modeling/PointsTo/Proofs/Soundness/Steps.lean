import PointsTo.Proofs.Blocks
import PointsTo.Proofs.Soundness.Frames

/-! Single steps of an execution. The copies of a statement assign what the statement assigns. The
copies around a call bring a new frame what its actuals hold, and bring the caller the result;
what they write back does no harm while the formals are kept. -/
namespace PointsTo

namespace Inliner

variable {t T : PointerTable} {seed σ : Facts} {methods : OrderedSet MethodId} {c : Call}
  {caller callee : MethodId} {method : Method} {receiver : Option Var} {vars : List (Var × Var)}
  {ρ : Locals} {x : Slot} {o : Object} {f f' : Frame} {fs : List Frame} {copies : List Copy}

theorem foldl_set_eq_some {ps : List (Operand × Slot)} {init : Locals}
    (h : ps.foldl (fun τ (arg, x) => τ.set x (ρ.value arg)) init x = some o) :
    (∃ a, (.var a, x) ∈ ps ∧ ρ a = some o) ∨ init x = some o := by
  induction ps generalizing init with
  | nil => exact Or.inr h
  | cons p ps ih =>
    obtain ⟨arg, y⟩ := p
    rcases ih h with ⟨a, ha, ho⟩ | h
    · exact Or.inl ⟨a, List.mem_cons_of_mem _ ha, ho⟩
    · rcases Locals.set_eq_some.1 h with ⟨rfl, hv⟩ | ⟨-, h⟩
      · cases arg with
        | var a => exact Or.inl ⟨a, List.mem_cons_self, hv⟩
        | const value => cases hv
      · exact Or.inr h

theorem ofCall_eq_some (caller callee : MethodId) (h : ρ.ofCall c method x = some o) :
    ∃ a, (⟨callee, x⟩, ⟨caller, a⟩) ∈ passed caller c callee method ∧ ρ a = some o := by
  have hargs : ∀ τ : Locals, (c.args.zip method.params).foldl
      (fun τ (arg, x) => τ.set x (ρ.value arg)) .empty = τ → τ x = some o →
      ∃ a, (⟨callee, x⟩, ⟨caller, a⟩) ∈ passed caller c callee method ∧ ρ a = some o := by
    rintro τ rfl h
    rcases foldl_set_eq_some h with ⟨a, ha, ho⟩ | h
    · exact ⟨a, mem_passed.2 ⟨x, a, rfl, Or.inl ha⟩, ho⟩
    · cases h
  cases hbase : c.base with
  | none =>
    simp only [Locals.ofCall, hbase] at h
    exact hargs _ rfl h
  | some b =>
    cases hthis : method.this with
    | none =>
      simp only [Locals.ofCall, hbase, hthis] at h
      exact hargs _ rfl h
    | some this =>
      simp only [Locals.ofCall, hbase, hthis] at h
      rcases Locals.set_eq_some.1 h with ⟨rfl, ho⟩ | ⟨-, h⟩
      · exact ⟨b, mem_passed.2 ⟨x, b, rfl, Or.inr ⟨hbase, hthis⟩⟩, ho⟩
      · exact hargs _ rfl h

def resultVars (receiver : Option Var) (callee : MethodId) : Option Operand → List (Var × Var)
  | some (.var y) => receiver.toList.map fun r => (r, ⟨callee, y⟩)
  | _ => []

theorem mem_resultVars {value : Option Operand} {v w : Var} :
    (v, w) ∈ resultVars receiver callee value ↔
      receiver = some v ∧ value = some (.var w.slot) ∧ w.method = callee := by
  rcases value with _ | y | k
  · simp [resultVars]
  · simp only [resultVars, List.mem_map, Option.mem_toList, Prod.mk.injEq]
    constructor
    · rintro ⟨r, hr, rfl, rfl⟩
      exact ⟨hr, rfl, rfl⟩
    · rintro ⟨hr, hy, rfl⟩
      cases hy
      exact ⟨v, hr, rfl, rfl⟩
  · simp [resultVars]

theorem agrees_call (h : Agrees T seed methods o σ (f :: fs))
    (hd : method.formals.Nodup)
    (hfresh : callee ∉ (f :: fs).map (·.method))
    (hn : List.Forall₂ (Copy.Names T) copies
      (Pointer.ofVars (passed f.method c callee method))) :
    Agrees T seed methods o (σ.run copies) (⟨callee, 0, f.locals.ofCall c method⟩ :: f :: fs) := by
  have hother : ∀ g ∈ f :: fs, g.method ≠ callee := by
    intro g hg heq
    exact hfresh (List.mem_map.2 ⟨g, hg, heq⟩)
  refine h.pass f List.mem_cons_self (Ne.symm (hother f List.mem_cons_self)) hn
    (fun a ha => passed_methods ha) (fun g hg => ⟨hg, hother g hg⟩) fun x hx => ?_
  obtain ⟨a, ha, ho⟩ := ofCall_eq_some f.method callee hx
  constructor
  · intro v hv
    obtain rfl := passed_unique hd ha hv
    exact ho
  · intro hnot
    exact absurd ha (hnot _)

theorem result_source {value : Option Operand} (hresult : c.result = some x)
    (ho : returned ρ value = some o) :
    (∀ w, (⟨caller, x⟩, w) ∈ resultVars (receiverOf caller c) callee value ++
        writtenBack (receiverOf caller c) vars → ρ w.slot = some o) ∧
      ∃ w, (⟨caller, x⟩, w) ∈ resultVars (receiverOf caller c) callee value ++
        writtenBack (receiverOf caller c) vars := by
  have hr : receiverOf caller c = some ⟨caller, x⟩ := receiverOf_eq_some.2 ⟨rfl, hresult⟩
  obtain ⟨operand, rfl, ho⟩ := Option.bind_eq_some_iff.1 ho
  cases operand with
  | const k => cases ho
  | var y =>
    constructor
    · intro w hw
      rcases List.mem_append.1 hw with hw | hw
      · obtain ⟨-, hy, -⟩ := mem_resultVars.1 hw
        cases hy
        exact ho
      · exact absurd hr (mem_writtenBack.1 hw).2
    · refine ⟨⟨callee, y⟩, List.mem_append_left _ ?_⟩
      exact mem_resultVars.2 ⟨hr, rfl, rfl⟩

/-- Behind a return the caller holds what it held before the call, and the result. -/
theorem agrees_return {value : Option Operand} (h : Agrees T seed methods o σ (f :: f' :: fs))
    (hdistinct : ((f :: f' :: fs).map (·.method)).Nodup)
    (hn : List.Forall₂ (Copy.Names T) copies
      (Pointer.ofVars (resultVars (receiverOf f'.method c) f.method value ++
        writtenBack (receiverOf f'.method c) (passed f'.method c f.method method))))
    (hkeeps : ∀ formal actual, (formal, actual) ∈ passed f'.method c f.method method →
      c.result ≠ some actual.slot →
        f'.locals actual.slot = some o → f.locals formal.slot = some o) :
    Agrees T seed methods o (σ.run copies)
      (⟨f'.method, f'.pc + 1, f'.locals.assignResult c (returned f.locals value)⟩ :: fs) := by
  simp only [List.map_cons, List.nodup_cons, List.mem_cons, not_or] at hdistinct
  obtain ⟨⟨hne, -⟩, hcaller, -⟩ := hdistinct
  refine h.pass f List.mem_cons_self (Ne.symm hne) hn ?_ ?_ ?_
  · rintro ⟨v, w⟩ hvw
    rcases List.mem_append.1 hvw with hvw | hvw
    · obtain ⟨hr, -, hw⟩ := mem_resultVars.1 hvw
      exact ⟨(receiverOf_eq_some.1 hr).1, hw⟩
    · have := passed_methods (mem_writtenBack.1 hvw).1
      exact ⟨this.2, this.1⟩
  · intro g hg
    refine ⟨List.mem_cons_of_mem _ (List.mem_cons_of_mem _ hg), fun heq => hcaller ?_⟩
    exact List.mem_map.2 ⟨g, hg, heq⟩
  · intro x hx
    rw [Locals.assignResult_apply] at hx
    by_cases hresult : c.result = some x
    · rw [if_pos hresult] at hx
      obtain ⟨hall, w, hw⟩ := result_source hresult hx
      exact ⟨hall, fun hnot => absurd hw (hnot w)⟩
    · rw [if_neg hresult] at hx
      constructor
      · intro w hw
        rcases List.mem_append.1 hw with hw | hw
        · exact absurd (receiverOf_eq_some.1 (mem_resultVars.1 hw).1).2 hresult
        · exact hkeeps w _ (mem_writtenBack.1 hw).1 hresult hx
      · intro _
        exact ⟨f', List.mem_cons_of_mem _ List.mem_cons_self, rfl, hx⟩

section Local

variable {inl : Inliner} {s : Stmt} {e : Effect Nat} {p q : Pointer} {value : Option Operand}

theorem copies_of_copy (hle : t ≤ T) (he : e.Denotes t (.copy p q)) :
    ∃ c, e.copies = [c] ∧ c.Names T (p, q) := by
  cases e with
  | copy n k =>
    exact ⟨⟨n, k, .statement⟩, rfl, PointerTable.get?_of_le hle he.1,
      PointerTable.get?_of_le hle he.2⟩
  | _ => cases he

theorem copies_of_silent {e : Effect Pointer} (he : e.copy? = none) :
    (e.number t).1.copies = [] := by
  cases e with
  | copy target source => cases he
  | load target source => cases he
  | _ => rfl

theorem hook_silent {pc : Nat} (hhook : inl.hooks c ≠ none) :
    (Stmt.effect inl.hooks caller receiver pc (.call c)).copy? = none ∧
      (Stmt.effect inl.hooks caller receiver pc (.call c)).call? = none := by
  cases hc : inl.hooks c with
  | none => exact absurd hc hhook
  | some hook =>
    cases hook with
    | alloc label => simp [Stmt.effect, hc, Effect.copy?, Effect.call?]
    | test id traced =>
      cases id <;> cases traced <;> simp [Stmt.effect, hc, Effect.copy?, Effect.call?]

theorem jump_silent {pc target : Nat} (ht : target ∈ s.jumpTargets) :
    s.effect inl.hooks caller receiver pc = .idle := by
  cases s with
  | branch targets => rfl
  | goto targets => rfl
  | _ => cases ht

/-- A local step stays in its method, and goes on behind its statement or at a jump target. -/
theorem LocalStep.target (h : inl.LocalStep f f') : f'.method = f.method ∧
    ∃ s, inl.stmtAt f = some s ∧
      (∀ m receiver pc, (s.effect inl.hooks m receiver pc).call? = none) ∧
      ((s.fallsThrough = true ∧ f'.pc = f.pc + 1) ∨
        (f'.pc ∈ s.jumpTargets ∧ f'.pc < (inl.stmtsOf f.method).length)) := by
  cases h with
  | new hs => exact ⟨rfl, _, hs, fun _ _ _ => rfl, Or.inl ⟨rfl, rfl⟩⟩
  | @copy x operand hs =>
    refine ⟨rfl, _, hs, fun _ _ _ => ?_, Or.inl ⟨rfl, rfl⟩⟩
    cases operand <;> rfl
  | hook hs hhook => exact ⟨rfl, _, hs, fun _ _ _ => (hook_silent hhook).2, Or.inl ⟨rfl, rfl⟩⟩
  | other hs => exact ⟨rfl, _, hs, fun _ _ _ => rfl, Or.inl ⟨rfl, rfl⟩⟩
  | stay hs => exact ⟨rfl, _, hs, fun _ _ _ => rfl, Or.inl ⟨rfl, rfl⟩⟩
  | jump hs htarget hlt =>
    refine ⟨rfl, _, hs, fun m receiver pc => ?_, Or.inr ⟨htarget, hlt⟩⟩
    rw [jump_silent htarget]
    rfl

theorem agrees_local (hstep : inl.LocalStep f f') (hs : inl.stmtAt f = some s)
    (h : Agrees T seed methods o σ (f :: fs)) (hfresh : f.method ∉ fs.map (·.method))
    (hm : f.method ∈ methods) (hle : t ≤ T)
    (hd : ((s.effect inl.hooks f.method receiver f.pc).number t).1.Denotes t
      (s.effect inl.hooks f.method receiver f.pc)) :
    Agrees T seed methods o
      (σ.run ((s.effect inl.hooks f.method receiver f.pc).number t).1.copies) (f' :: fs) := by
  have hsilent : (s.effect inl.hooks f.method receiver f.pc).copy? = none →
      f'.method = f.method → (∀ x, f'.locals x = some o → f.locals x = some o) →
      Agrees T seed methods o
        (σ.run ((s.effect inl.hooks f.method receiver f.pc).number t).1.copies) (f' :: fs) := by
    intro hcopy hmethod hlocals
    rw [copies_of_silent hcopy]
    refine h.mono fun g hg x hx => ?_
    rcases List.mem_cons.1 hg with rfl | hg
    · exact ⟨f, List.mem_cons_self, hmethod.symm, hlocals x hx⟩
    · exact ⟨g, List.mem_cons_of_mem _ hg, rfl, hx⟩
  cases hstep with
  | @new x type hs' =>
    cases hs.symm.trans hs'
    obtain ⟨c, hc, hnames⟩ := copies_of_copy hle hd
    rw [hc]
    refine h.assign hfresh hnames fun ho => ?_
    cases ho
    exact h.allocation hm
  | @copy x operand hs' =>
    cases hs.symm.trans hs'
    cases operand with
    | var y =>
      obtain ⟨c, hc, hnames⟩ := copies_of_copy hle hd
      rw [hc]
      exact h.assign hfresh hnames fun ho => h.locals f List.mem_cons_self y ho
    | const k =>
      refine hsilent rfl rfl fun y hy => ?_
      rcases Locals.set_eq_some.1 hy with ⟨-, hv⟩ | ⟨-, hy⟩
      · cases hv
      · exact hy
  | hook hs' hhook =>
    cases hs.symm.trans hs'
    exact hsilent (hook_silent hhook).1 rfl fun _ hx => hx
  | other hs' =>
    cases hs.symm.trans hs'
    exact hsilent rfl rfl fun _ hx => hx
  | stay hs' =>
    cases hs.symm.trans hs'
    exact hsilent rfl rfl fun _ hx => hx
  | jump hs' htarget =>
    cases hs.symm.trans hs'
    refine hsilent ?_ rfl fun _ hx => hx
    rw [jump_silent htarget]
    rfl

theorem names_return {pc : Nat} (hle : t ≤ T)
    (hd : ((Stmt.effect inl.hooks callee receiver pc (.ret value)).number t).1.Denotes t
      (Stmt.effect inl.hooks callee receiver pc (.ret value))) :
    List.Forall₂ (Copy.Names T)
      ((Stmt.effect inl.hooks callee receiver pc (.ret value)).number t).1.copies
      (Pointer.ofVars (resultVars receiver callee value)) := by
  rcases value with _ | y | k
  · exact .nil
  · cases receiver with
    | none => exact .nil
    | some r =>
      obtain ⟨c, hc, hnames⟩ := copies_of_copy hle hd
      rw [hc]
      exact .cons hnames .nil
  · exact .nil

end Local

end Inliner

end PointsTo
