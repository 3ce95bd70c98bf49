import PointsTo.Proofs.Inline.Walks
import PointsTo.Proofs.Renaming.Graph

/-! Inlining a program whose methods are renamed. Every phase of inlining does with the renamed
state what it does with the state itself. It looks into the statements of methods that it inlines
only: of other callees it asks where they are found, whether they have a body, and their names. -/
namespace PointsTo

variable {σ : Renaming}

/-- The second method differs at most in its statements and the names of its locals, and has a body
if the first one has. -/
structure Method.SameOutside (method method' : Method) : Prop where
  outside : method' = { method with
    vars := method'.vars
    stmts := method'.stmts }
  body : method'.hasBody = method.hasBody

theorem Method.SameOutside.refl (method : Method) : method.SameOutside method := ⟨rfl, rfl⟩

section Outside

variable {method method' : Method} (h : method.SameOutside method')

include h

theorem Method.SameOutside.qualifiedName : method'.qualifiedName = method.qualifiedName := by
  rw [h.outside]
  rfl

theorem Method.SameOutside.params : method'.params = method.params := by
  rw [h.outside]

theorem Method.SameOutside.this : method'.this = method.this := by
  rw [h.outside]

end Outside

def renameAll (σ : Renaming) (ms : OrderedSet MethodId) : OrderedSet MethodId :=
  .ofList (ms.toList.map σ)

theorem mem_renameAll {ms : OrderedSet MethodId} {m : MethodId} :
    σ m ∈ renameAll σ ms ↔ m ∈ ms := by
  rw [renameAll, OrderedSet.mem_ofList, List.mem_map_of_injective σ.injective]
  exact OrderedSet.mem_def.symm

@[simp] theorem renameAll_refl (ms : OrderedSet MethodId) : renameAll (.refl _) ms = ms := by
  apply OrderedSet.ext
  intro m
  exact mem_renameAll (σ := .refl _)

theorem renameAll_insert (ms : OrderedSet MethodId) (m : MethodId) :
    renameAll σ (ms.insert m) = (renameAll σ ms).insert (σ m) := by
  apply OrderedSet.ext
  intro k
  obtain ⟨k, rfl⟩ := σ.surjective k
  rw [mem_renameAll, OrderedSet.mem_insert, OrderedSet.mem_insert, mem_renameAll, σ.apply_eq_iff_eq]

theorem renameAll_perm (ms : OrderedSet MethodId) :
    (renameAll σ ms).toList.Perm (ms.toList.map σ) := by
  apply (List.perm_ext_iff_of_nodup (OrderedSet.nodup_toList _) ?_).2
  · intro m
    rw [renameAll, ← OrderedSet.mem_def, OrderedSet.mem_ofList]
  · exact (OrderedSet.nodup_toList ms).map σ.injective

@[simp] theorem size_renameAll (ms : OrderedSet MethodId) : (renameAll σ ms).size = ms.size := by
  rw [OrderedSet.size, (renameAll_perm ms).length_eq, List.length_map, OrderedSet.size]

@[simp] theorem renameAll_empty : renameAll σ ∅ = ∅ := rfl

def PendingCall.rename (σ : Renaming) (p : PendingCall) : PendingCall :=
  { p with
    caller := σ p.caller
    callee := σ p.callee }

def Instance.rename (σ : Renaming) (inst : Instance) : Instance :=
  { inst with calls := inst.calls.map (PendingCall.rename σ) }

def Inlining.rename (σ : Renaming) (st : Inlining) : Inlining :=
  { st with
    draft := st.draft.rename σ
    table := st.table.rename σ
    methods := renameAll σ st.methods }

def Inlined.rename (σ : Renaming) (i : Inlined) : Inlined :=
  { i with
    draft := i.draft.rename σ
    table := i.table.rename σ
    methods := renameAll σ i.methods }

@[simp] theorem Inlined.rename_refl (i : Inlined) : i.rename (.refl _) = i := by
  simp [rename]

namespace Inliner

/-- The second inliner has the first one's program with its methods renamed. The given methods are
the same in both, other methods may differ inside. -/
structure Mirrors (σ : Renaming) (same : MethodId → Prop) (inl inl' : Inliner) : Prop where
  hooks : inl'.hooks = inl.hooks
  maxDepth : inl'.maxDepth = inl.maxDepth
  resolver : ∀ r, inl'.resolver inl'.program r = (inl.resolver inl.program r).map σ
  outside : ∀ m method, inl.program.method? m = some method →
    ∃ method', inl'.program.method? (σ m) = some method' ∧ method.SameOutside method'
  inside : ∀ m method, same m → inl.program.method? m = some method →
    inl'.program.method? (σ m) = some method

variable {inl inl' : Inliner} {same : MethodId → Prop} {m : MethodId} {receiver : Option Var}
  {depth : Nat} {st st' : Inlining} {inst : Instance} {c : Call} {w : PendingCall}

section Classify

variable (hm : Mirrors σ same inl inl')

include hm

theorem target_rename {found : Option MethodId} (h : inl.target c = .ok found) :
    inl'.target c = .ok (found.map σ) := by
  unfold target at h ⊢
  rw [hm.resolver]
  cases hr : inl.resolver inl.program c.callee with
  | none =>
    rw [hr] at h
    cases h
    rfl
  | some id =>
    rw [hr] at h
    obtain ⟨method, hmethod, h⟩ := bind_eq_ok.1 h
    obtain ⟨method', hmethod', hsame⟩ := hm.outside id method (orFault_eq_ok.1 hmethod)
    have hmethod' : inl'.program.method (σ id) = .ok method' := orFault_eq_ok.2 hmethod'
    simp only [Option.map_some, hmethod', ok_bind, hsame.body]
    rw [← pure_eq_ok.1 h]
    split <;> rfl

theorem classifyCall_rename {block : Nat} {call? : Option PendingCall}
    (h : inl.classifyCall m depth block c st = .ok (call?, st')) :
    inl'.classifyCall (σ m) depth block c (st.rename σ) =
      .ok (call?.map (PendingCall.rename σ), st'.rename σ) := by
  unfold classifyCall at h ⊢
  obtain ⟨found, hfound, h⟩ := bind_eq_ok.1 h
  rw [target_rename hm hfound, ok_bind, hm.maxDepth]
  cases found with
  | none =>
    cases h
    rfl
  | some callee =>
    dsimp only [Option.map_some] at h ⊢
    split at h
    · next hdepth =>
      cases h
      rw [if_pos hdepth]
      rfl
    · next hdepth =>
      obtain ⟨method, hmethod, h⟩ := bind_eq_ok.1 h
      cases h
      obtain ⟨method', hmethod', hsame⟩ := hm.outside callee method (orFault_eq_ok.1 hmethod)
      have hmethod' : inl'.program.method (σ callee) = .ok method' := orFault_eq_ok.2 hmethod'
      rw [if_neg hdepth, hmethod', ok_bind, hsame.qualifiedName]
      rfl

theorem classifyCalls_rename {base : Nat} {bis : List (LocalBlock × Nat)}
    {calls : List PendingCall} (h : inl.classifyCalls m depth base bis st = .ok (calls, st')) :
    inl'.classifyCalls (σ m) depth base bis (st.rename σ) =
      .ok (calls.map (PendingCall.rename σ), st'.rename σ) := by
  induction bis generalizing st calls with
  | nil =>
    cases h
    rfl
  | cons bi bis ih =>
    obtain ⟨b, i⟩ := bi
    rw [classifyCalls] at h ⊢
    cases hcall : b.call with
    | none =>
      rw [hcall] at h
      exact ih h
    | some found =>
      rw [hcall] at h
      obtain ⟨⟨call?, st₁⟩, hfirst, h⟩ := bind_eq_ok.1 h
      obtain ⟨⟨rest, st₂⟩, hrest, h⟩ := bind_eq_ok.1 h
      cases h
      dsimp only
      rw [classifyCall_rename hm hfirst, ok_bind]
      dsimp only
      rw [ih hrest, ok_bind]
      cases call? <;> rfl

end Classify

theorem bindings_rename {method method' : Method} (hsame : method.SameOutside method')
    (caller callee : MethodId) : bindings (σ caller) c (σ callee) method' =
      (bindings caller c callee method).map (renamePair σ) := by
  unfold bindings
  dsimp only
  rw [hsame.params, hsame.this, List.map_append, List.map_filterMap]
  congr 1
  · apply List.filterMap_congr
    intro ap _
    cases ap.1.slot? <;> rfl
  · cases c.base with
    | none => rfl
    | some b => cases method.this <;> rfl

theorem wire_rename (d : Draft) (p : PendingCall) (inst : Instance) (bind back : List Copy) :
    wire (d.rename σ) (p.rename σ) (inst.rename σ) bind back =
      (wire d p inst bind back).rename σ := by
  have henter : ∀ d : Draft, (d.rename σ).addBlock (.enter (σ p.callee) p.depth) bind none =
      (d.addBlock (.enter p.callee p.depth) bind none).rename σ :=
    fun d => d.addBlock_rename (.enter p.callee p.depth) _ _
  have hleave : ∀ d : Draft, (d.rename σ).addBlock (.leave (σ p.callee) p.depth) back none =
      (d.addBlock (.leave p.callee p.depth) back none).rename σ :=
    fun d => d.addBlock_rename (.leave p.callee p.depth) _ _
  have hexits : ∀ (leave : Nat) (d : Draft), inst.exits.foldl (fun d e => d.link e leave)
      (d.rename σ) = (inst.exits.foldl (fun d e => d.link e leave) d).rename σ :=
    fun leave d => List.foldl_hom (Draft.rename σ) fun d e => d.link_rename e leave
  unfold wire
  simp only [PendingCall.rename, Instance.rename, Draft.size_rename, henter, hleave,
    Draft.successors_rename, Draft.unlink_rename, Draft.link_rename, hexits, Draft.linkAll_rename]

section Instances

variable (hm : Mirrors σ same inl inl')

include hm

theorem instantiate_rename (hsame : same m)
    (h : inl.instantiate m receiver depth st = .ok (inst, st')) :
    inl'.instantiate (σ m) (receiver.map (Var.rename σ)) depth (st.rename σ) =
      .ok (inst.rename σ, st'.rename σ) := by
  unfold instantiate at h ⊢
  obtain ⟨method, hmethod, h⟩ := bind_eq_ok.1 h
  have hmethod' : inl'.program.method (σ m) = .ok method :=
    orFault_eq_ok.2 (hm.inside m method hsame (orFault_eq_ok.1 hmethod))
  have hblocks := methodBlocks_alike (σ := σ) inl.hooks m method.stmts receiver st.table
  simp only [hmethod', ok_bind, hm.hooks, Inlining.rename, hblocks]
  generalize methodBlocks inl.hooks m method.stmts receiver st.table = found at h ⊢
  obtain ⟨blocks, table⟩ := found
  obtain ⟨⟨calls, st₁⟩, hcalls, h⟩ := bind_eq_ok.1 h
  cases h
  have hcalls' := classifyCalls_rename hm hcalls
  simp only [Inlining.rename, Draft.size_rename, Draft.addBlocks_rename,
    ← renameAll_insert] at hcalls' ⊢
  rw [hcalls']
  rfl

theorem splice_rename (hsame : same w.callee) (h : inl.splice w st = .ok (inst, st')) :
    inl'.splice (w.rename σ) (st.rename σ) = .ok (inst.rename σ, st'.rename σ) := by
  have hresult : w.call.result.map (fun r => (⟨σ w.caller, r⟩ : Var)) =
      (w.call.result.map fun r => ⟨w.caller, r⟩).map (Var.rename σ) := by
    rw [Option.map_map]
    rfl
  have hreceiver := internReceiver_alike (σ := σ)
    (w.call.result.map fun r => (⟨w.caller, r⟩ : Var)) st.table
  unfold splice at h ⊢
  dsimp only at h
  simp only [PendingCall.rename, Inlining.rename, hresult, hreceiver]
  generalize internReceiver st.table _ = found at h ⊢
  obtain ⟨receiverId, table⟩ := found
  obtain ⟨⟨inst₁, st₁⟩, hinst, h⟩ := bind_eq_ok.1 h
  obtain ⟨method, hmethod, h⟩ := bind_eq_ok.1 h
  have hmethod' : inl'.program.method (σ w.callee) = .ok method :=
    orFault_eq_ok.2 (hm.inside w.callee method hsame (orFault_eq_ok.1 hmethod))
  have hinst' := instantiate_rename hm hsame hinst
  have hpairs := numberPairs_alike (σ := σ) (bindings w.caller w.call w.callee method) st₁.table
  have hbindings := bindings_rename (σ := σ) (c := w.call) (.refl method) w.caller w.callee
  simp only [Inlining.rename] at hinst'
  simp only [renamePair] at hbindings
  dsimp only at hpairs h
  simp only [hinst', ok_bind, hmethod', hbindings, hpairs]
  generalize numberPairs st₁.table _ = numbered at h ⊢
  cases h
  rw [← wire_rename]
  rfl

end Instances

theorem Expands.extends_methods {levels : Nat} {calls : List PendingCall}
    (h : inl.Expands levels calls st st') : ∀ m ∈ st.methods, m ∈ st'.methods := by
  apply h.preserves (P := fun st' => ∀ m ∈ st.methods, m ∈ st'.methods)
  · intro w st₁ inst st₂ hsplice hst m hm
    rw [(splice_spec hsplice).2.2.1]
    exact OrderedSet.mem_insert.2 (Or.inr (hst m hm))
  · intro m hm
    exact hm

/-- Expanding goes into no method that has no instance in the end. -/
theorem Expands.rename (hm : Mirrors σ same inl inl') {levels : Nat} {calls : List PendingCall}
    (h : inl.Expands levels calls st st') (hsame : ∀ m ∈ st'.methods, same m) :
    inl'.Expands levels (calls.map (PendingCall.rename σ)) (st.rename σ) (st'.rename σ) := by
  induction h with
  | cut => exact .cut
  | done => exact .done
  | turn hsplice hinner hrest ih₁ ih₂ =>
    rw [List.map_append, List.map_singleton]
    refine .turn (splice_rename hm (hsame _ ?_) hsplice) (ih₁ fun m hm => ?_) (ih₂ hsame)
    · apply hrest.extends_methods
      apply hinner.extends_methods
      rw [(splice_spec hsplice).2.2.1]
      exact OrderedSet.mem_insert.2 (Or.inl rfl)
    · exact hsame m (hrest.extends_methods m hm)

theorem run_rename (hm : Mirrors σ same inl inl') {entry : MethodId} {found : Option Inlined}
    (h : inl.run entry = .ok found) (hentry : same entry)
    (hsame : ∀ i, found = some i → ∀ m ∈ i.methods, same m) :
    inl'.run (σ entry) = .ok (found.map (Inlined.rename σ)) := by
  unfold run at h ⊢
  obtain ⟨method, hmethod, h⟩ := bind_eq_ok.1 h
  have hmethod' : inl'.program.method (σ entry) = .ok method :=
    orFault_eq_ok.2 (hm.inside entry method hentry (orFault_eq_ok.1 hmethod))
  rw [hmethod', ok_bind]
  split at h
  · next hempty =>
    cases h
    rw [if_pos hempty]
    rfl
  · next hempty =>
    obtain ⟨⟨root, st⟩, hroot, h⟩ := bind_eq_ok.1 h
    obtain ⟨st', hst, h⟩ := bind_eq_ok.1 h
    cases h
    have hroot' := instantiate_rename hm hentry hroot
    have hst' := expands_iff.1 ((expands_iff.2 hst).rename hm (hsame _ rfl))
    have hstart : (Inlining.start ∅).rename σ = .start ∅ := by
      simp [Inlining.rename, Inlining.start]
    rw [if_neg hempty]
    rw [hstart] at hroot'
    simp only [Option.map_none] at hroot'
    simp only [hroot', ok_bind, Instance.rename, hm.maxDepth, hst']
    simp only [Inlining.rename, size_renameAll, Draft.size_rename]
    rfl

end Inliner

end PointsTo
