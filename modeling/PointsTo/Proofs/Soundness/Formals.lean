import PointsTo.Proofs.Soundness.Steps

/-! Programs whose methods never assign a formal. In their executions every formal holds what its
actual held at the call, so returns find all of them unchanged. -/
namespace PointsTo

namespace Inliner

variable {inl : Inliner} {ρ : Locals} {c : Call} {method : Method} {caller callee : MethodId}
  {x : Slot} {o : Object} {f f' : Frame} {fs frames frames' : List Frame} {entry : MethodId}
  {formal actual : Var}

theorem formal_of_mem_passed (h : (formal, actual) ∈ passed caller c callee method) :
    formal.slot ∈ method.formals := by
  obtain ⟨x, a, heq, hx⟩ := mem_passed.1 h
  cases heq
  rcases hx with hx | ⟨-, hx⟩
  · exact List.mem_append_left _ (List.of_mem_zip hx).2
  · exact List.mem_append_right _ (Option.mem_toList.2 hx)

theorem foldl_set_of_not_mem {ps : List (Operand × Slot)} {init : Locals}
    (h : ∀ arg, (arg, x) ∉ ps) :
    ps.foldl (fun τ (arg, x) => τ.set x (ρ.value arg)) init x = init x := by
  induction ps generalizing init with
  | nil => rfl
  | cons p ps ih =>
    obtain ⟨arg, y⟩ := p
    have hne : x ≠ y := by
      rintro rfl
      exact h arg List.mem_cons_self
    refine (ih fun arg harg => h arg (List.mem_cons_of_mem _ harg)).trans ?_
    exact if_neg hne

theorem foldl_set_of_mem {ps : List (Operand × Slot)} {init : Locals} {arg : Operand}
    (hunique : ∀ arg', (arg', x) ∈ ps → arg' = arg) (h : (arg, x) ∈ ps) :
    ps.foldl (fun τ (arg, x) => τ.set x (ρ.value arg)) init x = ρ.value arg := by
  induction ps generalizing init with
  | nil => cases h
  | cons p ps ih =>
    have hrest : ∀ arg', (arg', x) ∈ ps → arg' = arg :=
      fun arg' harg => hunique arg' (List.mem_cons_of_mem _ harg)
    by_cases hin : (arg, x) ∈ ps
    · exact ih hrest hin
    · obtain rfl := (List.mem_cons.1 h).resolve_right hin
      have hnot : ∀ arg', (arg', x) ∉ ps := by
        intro arg' harg
        obtain rfl := hrest arg' harg
        exact hin harg
      refine (foldl_set_of_not_mem hnot).trans ?_
      exact if_pos rfl

theorem ofCall_eq (hd : method.formals.Nodup)
    (h : (formal, actual) ∈ passed caller c callee method) :
    ρ.ofCall c method formal.slot = ρ actual.slot := by
  obtain ⟨x, a, heq, hx⟩ := mem_passed.1 h
  cases heq
  rcases hx with hx | ⟨hbase, hthis⟩
  · have hargs : ∀ τ : Locals, (c.args.zip method.params).foldl
        (fun τ (arg, x) => τ.set x (ρ.value arg)) .empty = τ → τ x = ρ a := by
      rintro τ rfl
      exact foldl_set_of_mem
        (fun arg' harg => arg_unique (List.nodup_append.1 hd).1 harg hx) hx
    cases hbase : c.base with
    | none =>
      simp only [Locals.ofCall, hbase]
      exact hargs _ rfl
    | some b =>
      cases hthis : method.this with
      | none =>
        simp only [Locals.ofCall, hbase, hthis]
        exact hargs _ rfl
      | some this =>
        have hne : x ≠ this := by
          rintro rfl
          exact this_not_param hd hx hthis
        simp only [Locals.ofCall, hbase, hthis]
        rw [Locals.set, if_neg hne]
        exact hargs _ rfl
  · simp only [Locals.ofCall, hbase, hthis]
    rw [Locals.set, if_pos rfl]

def Bound (inl : Inliner) (f f' : Frame) : Prop :=
  ∀ c method, inl.stmtAt f' = some (.call c) → inl.program.method? f.method = some method →
    ∀ formal actual, (formal, actual) ∈ passed f'.method c f.method method →
      f.locals formal.slot = f'.locals actual.slot

theorem Bound.of_formals {g : Frame} (h : inl.Bound f f') (hm : g.method = f.method)
    (hlocals : ∀ method, inl.program.method? f.method = some method → ∀ x ∈ method.formals,
      g.locals x = f.locals x) : inl.Bound g f' := by
  intro c method hs hmethod formal actual hmem
  rw [hm] at hmethod hmem
  rw [hlocals method hmethod _ (formal_of_mem_passed hmem)]
  exact h c method hs hmethod formal actual hmem

theorem formal_not_assigned {s : Stmt} {y : Slot} (hk : inl.program.KeepsFormals)
    (hmethod : inl.program.method? f.method = some method) (hx : x ∈ method.formals)
    (hs : inl.stmtAt f = some s) (hy : y ∈ s.assigned?) : x ≠ y := by
  rintro rfl
  rw [stmtAt, stmtsOf, hmethod] at hs
  exact hk method (List.mem_of_getElem? hmethod) s (List.mem_of_getElem? hs) x hy hx

theorem localStep_keeps_formals (hk : inl.program.KeepsFormals) (h : inl.LocalStep f f')
    (hmethod : inl.program.method? f.method = some method) (hx : x ∈ method.formals) :
    f'.locals x = f.locals x := by
  cases h with
  | new hs => exact if_neg (formal_not_assigned hk hmethod hx hs rfl)
  | copy hs => exact if_neg (formal_not_assigned hk hmethod hx hs rfl)
  | _ => rfl

theorem return_keeps_formals {v : Option Object} (hk : inl.program.KeepsFormals)
    (hs : inl.stmtAt f = some (.call c)) (hmethod : inl.program.method? f.method = some method)
    (hx : x ∈ method.formals) : f.locals.assignResult c v x = f.locals x := by
  rw [Locals.assignResult_apply, if_neg]
  intro hresult
  exact formal_not_assigned hk hmethod hx hs hresult rfl

theorem isChain_bound_step (hk : inl.program.KeepsFormals)
    (hd : ∀ m ∈ inl.program.methods, m.formals.Nodup) (h : frames.IsChain inl.Bound)
    (hstep : inl.Step frames frames') : frames'.IsChain inl.Bound := by
  cases hstep with
  | @inner f f' fs hlocal =>
    cases fs with
    | nil => exact .singleton _
    | cons g fs =>
      obtain ⟨hbound, hrest⟩ := List.isChain_cons_cons.1 h
      have hm := hlocal.target.1
      refine List.isChain_cons_cons.2 ⟨hbound.of_formals hm fun method hmethod x hx => ?_, hrest⟩
      exact localStep_keeps_formals hk hlocal hmethod hx
  | @call f fs c callee method hs hhook hcallee hmethod =>
    refine List.isChain_cons_cons.2 ⟨?_, h⟩
    intro c' method' hs' hmethod' formal actual hmem
    cases hs.symm.trans hs'
    cases hmethod.symm.trans hmethod'
    exact ofCall_eq (hd method (List.mem_of_getElem? hmethod)) hmem
  | @ret f f' fs value c hs hs' =>
    obtain ⟨-, hrest⟩ := List.isChain_cons_cons.1 h
    cases fs with
    | nil => exact .singleton _
    | cons g fs =>
      obtain ⟨hbound, hrest⟩ := List.isChain_cons_cons.1 hrest
      refine List.isChain_cons_cons.2 ⟨hbound.of_formals rfl fun method hmethod x hx => ?_, hrest⟩
      exact return_keeps_formals hk hs' hmethod hx

/-- Where no formal is ever assigned, no return finds one changed. -/
theorem keepsActuals_of_keepsFormals (hk : inl.program.KeepsFormals)
    (hd : ∀ m ∈ inl.program.methods, m.formals.Nodup) {xs : List (List Frame)}
    (h : inl.Execution entry xs frames) : ∀ x ∈ xs, inl.KeepsActuals o x := by
  have hchain : ∀ xs frames, inl.Execution entry xs frames →
      frames.IsChain inl.Bound ∧ ∀ x ∈ xs, x.IsChain inl.Bound := by
    intro xs frames h
    induction h with
    | start => simp
    | step _ hstep ih =>
      have hnext := isChain_bound_step hk hd ih.1 hstep
      refine ⟨hnext, fun x hx => ?_⟩
      rcases List.mem_append.1 hx with hx | hx
      · exact ih.2 x hx
      · rw [List.mem_singleton.1 hx]
        exact hnext
  intro x hx f f' fs value c method heq hs hs' hmethod formal actual hmem _ ho
  have hx := (hchain xs frames h).2 x hx
  rw [heq] at hx
  rw [(List.isChain_cons_cons.1 hx).1 c method hs' hmethod formal actual hmem]
  exact ho

end Inliner

end PointsTo
