import Mathlib.Data.List.Induction
import PointsTo.Proofs.Inline.Layout

/-! Walks through the inlined graph are the runs of the stack machine. -/
namespace PointsTo

theorem resolveFrom_lt {p : Program} {r : MethodRef} {steps : Nat} {owner : String} {id : MethodId}
    (h : p.resolveFrom r steps owner = some id) : id < p.methods.length := by
  induction steps generalizing owner with
  | zero => cases h
  | succ steps ih =>
    rw [Program.resolveFrom, Option.orElse_eq_orElse, Option.orElse_eq_or,
      Option.or_eq_some_iff] at h
    rcases h with h | ⟨-, h⟩
    · exact (List.findIdx?_eq_some_iff_getElem.1 h).1
    · obtain ⟨parent, -, h⟩ := Option.bind_eq_some_iff.1 h
      exact ih h

/-- Looking targets up along superclasses finds methods of the program only. -/
theorem hierarchy_valid (p : Program) : Resolver.hierarchy.Valid p :=
  fun _ _ h => resolveFrom_lt h

namespace Inliner

/-- How calls are expanded: the last one is spliced, then the calls of its callee are expanded, and
then the calls before it. -/
inductive Expands (inl : Inliner) : Nat → List PendingCall → Inlining → Inlining → Prop where
  | cut {calls st} : Expands inl 0 calls st st
  | done {levels st} : Expands inl (levels + 1) [] st st
  | turn {levels calls w inst st st₁ st₂ st'} : inl.splice w st = .ok (inst, st₁) →
      Expands inl levels inst.calls st₁ st₂ → Expands inl (levels + 1) calls st₂ st' →
        Expands inl (levels + 1) (calls ++ [w]) st st'

variable {inl : Inliner} {t : PointerTable} {st st' : Inlining} {pts : List Point}
  {calls rest : List PendingCall} {levels : Nat} {entry : MethodId}

theorem expands_iff :
    inl.Expands levels calls st st' ↔ inl.expand levels calls st = .ok st' := by
  constructor
  · intro h
    induction h with
    | cut => rfl
    | done => rfl
    | turn hsplice _ _ ih₁ ih₂ =>
      rw [expand] at ih₂ ⊢
      rw [List.reverse_append, List.reverse_singleton, List.singleton_append, List.foldlM_cons]
      exact bind_eq_ok.2 ⟨_, bind_eq_ok.2 ⟨_, hsplice, ih₁⟩, ih₂⟩
  · intro h
    induction levels generalizing calls st st' with
    | zero =>
      cases h
      exact .cut
    | succ levels ih =>
      rw [expand] at h
      induction calls using List.reverseRecOn generalizing st with
      | nil =>
        cases h
        exact .done
      | append_singleton calls w ihcalls =>
        rw [List.reverse_append, List.reverse_singleton, List.singleton_append,
          List.foldlM_cons] at h
        obtain ⟨st₂, h₂, h⟩ := bind_eq_ok.1 h
        obtain ⟨⟨inst, st₁⟩, h₁, h₂⟩ := bind_eq_ok.1 h₂
        exact .turn h₁ (ih h₂) (ihcalls h)

/-- What every splice preserves, expanding preserves. -/
theorem Expands.preserves {P : Inlining → Prop} (h : inl.Expands levels calls st st')
    (hsplice : ∀ w st inst st', inl.splice w st = .ok (inst, st') → P st → P st')
    (hst : P st) : P st' := by
  induction h with
  | cut => exact hst
  | done => exact hst
  | turn h₁ _ _ ih₁ ih₂ => exact ih₂ (ih₁ (hsplice _ _ _ _ h₁ hst))

theorem Expands.extends_table (h : inl.Expands levels calls st st') : st.table ≤ st'.table :=
  h.preserves (P := fun st' => st.table ≤ st'.table)
    (fun _ _ _ _ h₁ hle => PointerTable.le_trans hle (splice_spec h₁).1) (PointerTable.le_refl _)

def InLevels (inl : Inliner) (levels : Nat) (calls : List PendingCall) : Prop :=
  ∀ w ∈ calls, w.depth + levels = inl.maxDepth + 1 ∧ w.depth ≤ inl.maxDepth

/-- A call that waits lies within the depth limit, so none is left at level zero. -/
theorem InLevels.eq_nil (h : inl.InLevels 0 calls) : calls = [] := by
  refine List.eq_nil_iff_forall_not_mem.2 fun w hw => ?_
  have := h w hw
  omega

theorem InLevels.init {w : PendingCall} (h : inl.InLevels levels (calls ++ [w])) :
    inl.InLevels levels calls :=
  fun v hv => h v (List.mem_append_left _ hv)

theorem InLevels.spliced {w : PendingCall} {inst : Instance}
    (h : inl.InLevels (levels + 1) (calls ++ [w])) (hsplice : inl.splice w st = .ok (inst, st')) :
    inl.InLevels levels inst.calls := by
  intro v hv
  have := h w List.mem_concat_self
  have := spliced_depth hsplice v hv
  omega

theorem root_inLevels {root : Instance}
    (h : inl.instantiate entry none 0 st = .ok (root, st')) :
    inl.InLevels inl.maxDepth root.calls := by
  obtain ⟨-, -, -, -, hspec⟩ := instantiate_spec h
  obtain ⟨-, -, rfl, -⟩ := hspec st'.table (PointerTable.le_refl _)
  intro w hw
  have := depth_of_mem_pendingOf hw
  omega

theorem Expands.layout (h : inl.Expands levels calls st st') (hdepth : inl.InLevels levels calls)
    (hl : Layout inl t st pts (calls ++ rest)) (ht : st'.table ≤ t) :
    ∃ pts', pts <+: pts' ∧ Layout inl t st' pts' rest := by
  induction h generalizing pts rest with
  | cut =>
    rw [hdepth.eq_nil] at hl
    exact ⟨pts, List.prefix_refl _, hl⟩
  | done => exact ⟨pts, List.prefix_refl _, hl⟩
  | @turn levels calls w inst st st₁ st₂ st' h₁ h₂ h₃ ih₂ ih₃ =>
    have hle₂ := PointerTable.le_trans h₃.extends_table ht
    have hle₁ := PointerTable.le_trans h₂.extends_table hle₂
    have horder : (calls ++ [w] ++ rest).Perm (w :: (calls ++ rest)) := by
      rw [List.append_assoc]
      exact List.perm_middle
    obtain ⟨pts₁, hp₁, hl₁⟩ := splice_layout (hl.perm horder) h₁ hle₁
    obtain ⟨pts₂, hp₂, hl₂⟩ := ih₂ (hdepth.spliced h₁) hl₁ hle₂
    obtain ⟨pts', hp', hl'⟩ := ih₃ hdepth.init hl₂ ht
    exact ⟨pts', hp₁.trans (hp₂.trans hp'), hl'⟩

theorem callee_of_mem_pendingOf {m : MethodId} {depth base : Nat} {bis : List (LocalBlock × Nat)}
    {w : PendingCall} (hw : w ∈ inl.pendingOf m depth base bis) :
    (inl.program.method? w.callee).isSome = true := by
  obtain ⟨bi, -, hw⟩ := List.mem_filterMap.1 hw
  obtain ⟨ic, -, hw⟩ := Option.bind_eq_some_iff.1 hw
  obtain ⟨callee, hc, -, rfl⟩ := pendingFor_eq_some.1 hw
  obtain ⟨-, method, hm, -⟩ := callee?_eq_some.1 hc
  simp [hm]

theorem expand_ok (hv : inl.resolver.Valid inl.program) (levels : Nat)
    (hc : ∀ w ∈ calls, (inl.program.method? w.callee).isSome = true) (st : Inlining) :
    ∃ st', inl.expand levels calls st = .ok st' := by
  induction levels generalizing calls st with
  | zero => exact ⟨st, rfl⟩
  | succ levels ih =>
    refine foldlM_ok (fun w hw st => ?_) st
    obtain ⟨⟨inst, st₁⟩, h₁⟩ := splice_ok hv (hc w (List.mem_reverse.1 hw)) st
    obtain ⟨-, -, -, hspec⟩ := splice_spec h₁
    have hcalls : ∀ v ∈ inst.calls, (inl.program.method? v.callee).isSome = true := by
      obtain ⟨-, -, -, hinst, -⟩ := hspec st₁.table (PointerTable.le_refl _)
      rw [hinst]
      exact fun v hv => callee_of_mem_pendingOf hv
    obtain ⟨st₂, h₂⟩ := ih hcalls st₁
    exact ⟨st₂, by simp only [h₁, ok_bind, h₂]⟩

/-- A resolver that finds methods of the program only makes inlining succeed. -/
theorem run_ok (hv : inl.resolver.Valid inl.program) {method : Method}
    (hm : inl.program.method? entry = some method) (hs : method.stmts ≠ []) :
    ∃ i, inl.run entry = .ok (some i) := by
  have hmethod : inl.program.method entry = .ok method := orFault_eq_ok.2 hm
  have hentry : (inl.program.method? entry).isSome = true := by simp [hm]
  obtain ⟨⟨root, st⟩, hroot⟩ := instantiate_ok hv hentry none 0 (.start ∅)
  obtain ⟨-, -, -, -, hspec⟩ := instantiate_spec hroot
  have hcalls : ∀ v ∈ root.calls, (inl.program.method? v.callee).isSome = true := by
    obtain ⟨-, -, hroot, -⟩ := hspec st.table (PointerTable.le_refl _)
    rw [hroot]
    exact fun v hv => callee_of_mem_pendingOf hv
  obtain ⟨st', hst'⟩ := expand_ok hv inl.maxDepth hcalls st
  have hempty : method.stmts.isEmpty = false := by simpa using hs
  simp only [run, hmethod, ok_bind, hempty, Bool.false_eq_true, if_false, hroot, hst']
  exact ⟨_, rfl⟩

theorem run_eq_none {method : Method} (hm : inl.program.method? entry = some method)
    (hs : method.stmts = []) : inl.run entry = .ok none := by
  have hmethod : inl.program.method entry = .ok method := orFault_eq_ok.2 hm
  simp only [run, hmethod, ok_bind, hs, List.isEmpty_nil, if_true]
  rfl

theorem stmts_of_run_none (h : inl.run entry = .ok none) : inl.stmtsOf entry = [] := by
  obtain ⟨method, hm, h⟩ := bind_eq_ok.1 h
  have hm : inl.program.method? entry = some method := orFault_eq_ok.1 hm
  split at h
  · next hempty =>
    rw [stmtsOf, hm]
    exact List.isEmpty_iff.1 hempty
  · obtain ⟨root, -, h⟩ := bind_eq_ok.1 h
    obtain ⟨st, -, h⟩ := bind_eq_ok.1 h
    cases h

/-- A run that inlines something builds the entry method and expands its calls. -/
theorem run_expands {i : Inlined} (h : inl.run entry = .ok (some i)) :
    inl.stmtsOf entry ≠ [] ∧ ∃ root st st',
      inl.instantiate entry none 0 (.start ∅) = .ok (root, st) ∧
        inl.Expands inl.maxDepth root.calls st st' ∧ ∃ events, i = ⟨st'.draft, root.entry,
          st'.table, st'.methods, st'.unresolved, st'.stats, events⟩ := by
  obtain ⟨method, hm, h⟩ := bind_eq_ok.1 h
  split at h
  · cases h
  next hempty =>
  obtain ⟨⟨root, st⟩, hroot, h⟩ := bind_eq_ok.1 h
  obtain ⟨st', hst, h⟩ := bind_eq_ok.1 h
  cases h
  refine ⟨?_, root, st, st', hroot, expands_iff.2 hst, _, rfl⟩
  rw [stmtsOf, orFault_eq_ok.1 hm]
  simpa using hempty

/-- What a run of the inliner leaves behind: a graph whose blocks stand for points. -/
theorem run_layout {i : Inlined} (h : inl.run entry = .ok (some i)) :
    ∃ st pts, Layout inl i.table st pts [] ∧ pts[0]? = some (startPoint entry) ∧ i.entry = 0 ∧
      st.draft = i.draft ∧ st.methods = i.methods ∧ st.stats = i.stats := by
  obtain ⟨hstmts, root, st₁, st, hroot, hst, _, rfl⟩ := run_expands h
  obtain ⟨hentry, hl⟩ := start_layout hroot hst.extends_table
  have hl₀ : Layout inl st.table st₁ _ (root.calls ++ []) := (List.append_nil root.calls).symm ▸ hl
  obtain ⟨pts, hpts, hlayout⟩ := hst.layout (root_inLevels hroot) hl₀ (PointerTable.le_refl _)
  refine ⟨st, pts, hlayout, ?_, hentry, rfl, rfl, rfl⟩
  have hpos : 0 < (inl.blocksOf st.table entry none).length := methodBlocks_pos hstmts
  obtain ⟨tail, rfl⟩ := hpts
  rw [List.getElem?_append_left (by simpa using hpos), getElem?_instancePoints hpos]
  rfl

theorem run_methods {i : Inlined} (h : inl.run entry = .ok (some i)) :
    ∀ m ∈ i.methods, (inl.program.method? m).isSome = true := by
  obtain ⟨-, root, st₁, st, hroot, hst, _, rfl⟩ := run_expands h
  have hinsert : ∀ (methods : OrderedSet MethodId) k, (inl.program.method? k).isSome = true →
      (∀ m ∈ methods, (inl.program.method? m).isSome = true) →
      ∀ m ∈ methods.insert k, (inl.program.method? m).isSome = true := by
    intro methods k hk hmethods m hm
    rcases OrderedSet.mem_insert.1 hm with rfl | hm
    · exact hk
    · exact hmethods m hm
  refine hst.preserves
    (P := fun st => ∀ m ∈ st.methods, (inl.program.method? m).isSome = true) ?_ ?_
  · intro w st inst st' hw hmethods
    obtain ⟨-, callee, -, hcallee, -⟩ := splice_eq_ok hw
    rw [(splice_spec hw).2.2.1]
    exact hinsert _ _ (by rw [hcallee]; rfl) hmethods
  · obtain ⟨-, hentry, -, hmethods, -⟩ := instantiate_spec hroot
    rw [hmethods]
    exact hinsert _ _ hentry fun m hm => absurd hm (OrderedSet.not_mem_empty m)

theorem Layout.close_ok (h : Layout inl t st pts calls) (entry : Nat) :
    ∃ g, st.draft.close entry = .ok g :=
  Draft.close_ok h.inside entry

/-- Every edge is one step of the machine, and every step of the machine is an edge. -/
theorem Layout.step_iff (h : Layout inl t st pts []) {b : Nat} {p q : Point}
    (hb : pts[b]? = some p) : q ∈ inl.next t p ↔ ∃ c ∈ st.draft.successors b, pts[c]? = some q :=
  h.leads b p hb List.not_mem_nil q

section Walks

variable {d : Draft} {g : Graph} {bs : List Nat} {b : Nat} {ps : List Point} {p : Point}

def pointOf (entry : MethodId) (pts : List Point) (b : Nat) : Point :=
  pts.getD b (startPoint entry)

theorem pointOf_eq (hb : pts[b]? = some p) : pointOf entry pts b = p := by
  rw [pointOf, List.getD_eq_getElem?_getD, hb]
  rfl

structure Frozen (st : Inlining) (pts : List Point) (g : Graph) : Prop where
  wellFormed : g.WellFormed
  blocks : g.blocks = st.draft.blocks
  entry : g.entry = 0
  size : g.size = pts.length
  successors : ∀ b c, c ∈ g.successors b ↔ c ∈ st.draft.successors b

theorem Layout.frozen (h : Layout inl t st pts calls) (hg : st.draft.close 0 = .ok g) :
    Frozen st pts g := by
  have hfrozen := (Draft.freeze_eq_ok.1 hg).2
  have hblocks : g.blocks = st.draft.blocks := by rw [← hfrozen]
  constructor
  · exact Draft.freeze_wellFormed h.wellFormed hg
  · exact hblocks
  · rw [← hfrozen]
  · rw [Graph.size, hblocks, h.size, Draft.size]
  · exact fun b c => Draft.mem_successors_of_freeze hg

variable (hf : Frozen st pts g) (hl : Layout inl t st pts [])
  (hstart : pts[0]? = some (startPoint entry))

include hf hl hstart in
theorem run_of_walk (hw : g.EntryWalk bs b) : (∀ c ∈ bs, c < pts.length) ∧
    ∃ p, pts[b]? = some p ∧ inl.Run t entry (bs.map (pointOf entry pts)) p := by
  induction hw with
  | start =>
    rw [hf.entry, List.map_singleton, pointOf_eq hstart]
    refine ⟨fun c hc => ?_, _, hstart, .start⟩
    rw [List.mem_singleton.1 hc]
    exact (List.getElem?_eq_some_iff.1 hstart).1
  | @step bs b c hw hc ih =>
    obtain ⟨hinside, p, hp, hrun⟩ := ih
    have hsucc := (hf.successors b c).1 hc
    have hlt : c < pts.length := hl.size ▸ hl.inside b c hsucc
    have hq := List.getElem?_eq_getElem hlt
    have hstep := (hl.step_iff hp).2 ⟨c, hsucc, hq⟩
    refine ⟨fun x hx => ?_, pts[c], hq, ?_⟩
    · rcases List.mem_append.1 hx with hx | hx
      · exact hinside x hx
      · rw [List.mem_singleton.1 hx]
        exact hlt
    · rw [List.map_append, List.map_singleton, pointOf_eq hq]
      exact .step hrun hstep

include hf hl hstart in
theorem walk_of_run (hr : inl.Run t entry ps p) :
    ∃ bs b, g.EntryWalk bs b ∧ bs.map (pointOf entry pts) = ps ∧ pts[b]? = some p := by
  induction hr with
  | start =>
    exact ⟨[0], 0, hf.entry ▸ .start, by rw [List.map_singleton, pointOf_eq hstart], hstart⟩
  | @step ps p q hr hq ih =>
    obtain ⟨bs, b, hw, rfl, hb⟩ := ih
    obtain ⟨c, hc, hpc⟩ := (hl.step_iff hb).1 hq
    exact ⟨bs ++ [c], c, .step hw ((hf.successors b c).2 hc),
      by rw [List.map_append, List.map_singleton, pointOf_eq hpc], hpc⟩

theorem map_pointOf_inj (hd : pts.Nodup) {as : List Nat} (ha : ∀ c ∈ as, c < pts.length)
    (hb : ∀ c ∈ bs, c < pts.length) (h : as.map (pointOf entry pts) = bs.map (pointOf entry pts)) :
    as = bs := by
  have hinv : ∀ cs : List Nat, (∀ c ∈ cs, c < pts.length) →
      (cs.map (pointOf entry pts)).map (pts.idxOf ·) = cs := by
    intro cs hcs
    rw [List.map_map]
    refine (List.map_congr_left fun c hc => ?_).trans (List.map_id cs)
    have hlt := hcs c hc
    rw [Function.comp_apply, pointOf_eq (List.getElem?_eq_getElem hlt)]
    exact hd.idxOf_getElem c hlt
  rw [← hinv as ha, h, hinv bs hb]

theorem copies_of_walk (hf : Frozen st pts g) (hl : Layout inl t st pts [])
    (hb : ∀ c ∈ bs, c < pts.length) :
    g.copiesAlong bs = (bs.map (pointOf entry pts)).flatMap (inl.copiesAt t) := by
  rw [Graph.copiesAlong, List.flatMap_map]
  refine List.flatMap_congr fun c hc => ?_
  have hp := List.getElem?_eq_getElem (hb c hc)
  have hlt : c < st.draft.blocks.size := Nat.lt_of_lt_of_eq (hb c hc) hl.size
  have hfor := hl.content c _ hp
  rw [Array.getElem?_eq_getElem hlt] at hfor
  rw [pointOf_eq hp, ← copies_eq_copiesAt hfor.symm, Graph.copiesOf, hf.blocks,
    Array.getElem?_eq_getElem hlt]
  rfl

end Walks

/-- The walks from the entry of the inlined graph are the runs of the machine, one to one and with
the same copies. An edge into what a call runs starts at the block that binds its arguments, and
an edge out of it ends at the block that writes them back. -/
theorem walks_are_runs {method : Method} (hv : inl.resolver.Valid inl.program)
    (hm : inl.program.method? entry = some method) (hs : method.stmts ≠ []) :
    ∃ i g, inl.run entry = .ok (some i) ∧ i.draft.close i.entry = .ok g ∧
      ∃ point : Nat → Point,
        (∀ b < g.size, g.blocks[b]? = inl.blockFor i.table b (point b) ∧
          inl.Numbered i.table (point b)) ∧
        (∀ b < g.size, ∀ c < g.size, point b = point c → b = c) ∧
        (∀ bs b, g.EntryWalk bs b → inl.Run i.table entry (bs.map point) (point b) ∧
          g.copiesAlong bs = (bs.map point).flatMap (inl.copiesAt i.table)) ∧
        (∀ ps p, inl.Run i.table entry ps p →
          ∃! bs, (∃ b, g.EntryWalk bs b) ∧ bs.map point = ps) ∧
        ∀ b < g.size, ∀ c ∈ g.successors b, ∀ site callers,
          ((point b).Within site callers → ¬ (point c).Within site callers →
            point c = .leave site callers) ∧
          (¬ (point b).Within site callers → (point c).Within site callers →
            point b = .enter site callers) := by
  obtain ⟨i, hrun⟩ := run_ok hv hm hs
  obtain ⟨st, pts, hl, hstart, hentry, hdraft, -, -⟩ := run_layout hrun
  obtain ⟨g, hg⟩ := hl.close_ok i.entry
  have hf : Frozen st pts g := hl.frozen (hentry ▸ hg)
  have hsize := hf.size
  refine ⟨i, g, hrun, hdraft ▸ hg, pointOf entry pts, ?_, ?_, ?_, ?_, ?_⟩
  · intro b hb
    have hp := List.getElem?_eq_getElem (hsize ▸ hb)
    rw [hf.blocks, pointOf_eq hp]
    exact ⟨hl.content b _ hp, hl.numbered _ (List.mem_of_getElem? hp)⟩
  · intro b hb c hc h
    have hbs : ∀ x ∈ [b], x < pts.length := by simpa [← hsize] using hb
    have hcs : ∀ x ∈ [c], x < pts.length := by simpa [← hsize] using hc
    exact List.singleton_inj.1 (map_pointOf_inj hl.distinct hbs hcs (by simpa using h))
  · intro bs b hw
    obtain ⟨hinside, p, hp, hr⟩ := run_of_walk hf hl hstart hw
    rw [pointOf_eq hp]
    exact ⟨hr, copies_of_walk hf hl hinside⟩
  · intro ps p hr
    obtain ⟨bs, b, hw, hmap, -⟩ := walk_of_run hf hl hstart hr
    refine ⟨bs, ⟨⟨b, hw⟩, hmap⟩, ?_⟩
    rintro bs' ⟨⟨b', hw'⟩, hmap'⟩
    exact map_pointOf_inj hl.distinct (run_of_walk hf hl hstart hw').1
      (run_of_walk hf hl hstart hw).1 (hmap'.trans hmap.symm)
  · intro b hb c hc site callers
    have hp := List.getElem?_eq_getElem (hsize ▸ hb)
    have hsucc := (hf.successors b c).1 hc
    have hlt : c < pts.length := hl.size ▸ hl.inside b c hsucc
    have hq := List.getElem?_eq_getElem hlt
    have hnext := (hl.step_iff hp).2 ⟨c, hsucc, hq⟩
    rw [pointOf_eq hp, pointOf_eq hq]
    exact ⟨leave_of_not_within hnext, enter_of_within hnext⟩

/-- A loop around a call to a method that ends with a call to itself. -/
def loopingCalls : Inliner where
  program := ⟨[], [
    ⟨"M", "main", "", true, false, none, [], [], [.new 0 "A",
      .call ⟨some 1, ⟨"M", "f", ""⟩, [.var 0], none⟩, .branch [1], .ret none]⟩,
    ⟨"M", "f", "", true, false, none, [0], [], [.copy 1 (.var 0),
      .call ⟨none, ⟨"M", "f", ""⟩, [.var 1], none⟩]⟩], none⟩
  resolver := .hierarchy
  hooks := Hooks.default
  maxDepth := 2

/-- Around the calls, the parameter gets its argument and the argument gets it back. -/
theorem looping_calls_walks_are_runs :
    ∃ i g, loopingCalls.run 0 = .ok (some i) ∧ i.draft.close i.entry = .ok g ∧
      (∃ point : Nat → Point,
        (∀ bs b, g.EntryWalk bs b → loopingCalls.Run i.table 0 (bs.map point) (point b) ∧
          g.copiesAlong bs = (bs.map point).flatMap (loopingCalls.copiesAt i.table)) ∧
        ∀ ps p, loopingCalls.Run i.table 0 ps p →
          ∃! bs, (∃ b, g.EntryWalk bs b) ∧ bs.map point = ps) ∧
      g.copiesAlong [0, 1, 5, 4, 8, 7, 9, 6, 2] = [⟨0, 1, .statement⟩, ⟨4, 0, .call⟩,
        ⟨3, 4, .statement⟩, ⟨4, 3, .call⟩, ⟨3, 4, .statement⟩, ⟨3, 4, .call⟩, ⟨0, 4, .call⟩] ∧
      i.table.pointers =
        #[.var ⟨0, 0⟩, .allocation 0 0, .var ⟨0, 1⟩, .var ⟨1, 1⟩, .var ⟨1, 0⟩] := by
  obtain ⟨i, g, hrun, hclose, point, -, -, hwalks, hruns, -⟩ :=
    @walks_are_runs loopingCalls 0 _ (hierarchy_valid _) rfl (by decide)
  obtain ⟨r, hrun', hcopies⟩ : ∃ r, loopingCalls.run 0 = .ok r ∧ r.map (fun i =>
      ((i.draft.close i.entry).map (·.copiesAlong [0, 1, 5, 4, 8, 7, 9, 6, 2]),
        i.table.pointers)) = some (.ok [⟨0, 1, .statement⟩, ⟨4, 0, .call⟩, ⟨3, 4, .statement⟩,
          ⟨4, 3, .call⟩, ⟨3, 4, .statement⟩, ⟨3, 4, .call⟩, ⟨0, 4, .call⟩],
        #[.var ⟨0, 0⟩, .allocation 0 0, .var ⟨0, 1⟩, .var ⟨1, 1⟩, .var ⟨1, 0⟩]) :=
    exists_ok (by decide +kernel)
  cases hrun.symm.trans hrun'
  rw [Option.map_some, hclose, Option.some_inj, Prod.mk.injEq] at hcopies
  exact ⟨i, g, hrun, hclose, ⟨point, hwalks, hruns⟩, Except.ok.inj hcopies.1, hcopies.2⟩

end Inliner

end PointsTo
