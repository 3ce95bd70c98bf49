import PointsTo.Proofs.Blocks
import PointsTo.Proofs.Inline.Machine
import PointsTo.Proofs.Numbering

/-! What adding and splicing one instance does to the graph, the table and the counters. -/
namespace PointsTo

def InlineStats.Exhaustive (s : InlineStats) : Prop := s.truncated = 0 ∧ s.unresolved = 0

def Resolver.Valid (r : Resolver) (p : Program) : Prop :=
  ∀ target id, r p target = some id → id < p.methods.length

namespace Inliner

variable {inl : Inliner} {d : Draft} {m : MethodId} {depth b x : Nat} {blocks : List LocalBlock}

section Blocks

theorem foldl_addBlock (hd : d.WellFormed) :
    let d' := blocks.foldl
      (fun d b => d.addBlock (.body m b.first b.last depth) b.copies b.mark) d
    d'.WellFormed ∧ d'.size = d.size + blocks.length ∧ d'.successors = d.successors ∧
      ∀ b, d'.blocks[b]? = if b < d.size then d.blocks[b]? else blocks[b - d.size]?.map fun lb =>
        ⟨b, .body m lb.first lb.last depth, lb.copies, lb.mark⟩ := by
  induction blocks generalizing d with
  | nil =>
    refine ⟨hd, rfl, rfl, fun b => ?_⟩
    split
    · rfl
    · next hb => simpa [Draft.size] using hb
  | cons lb lbs ih =>
    let d₁ := d.addBlock (.body m lb.first lb.last depth) lb.copies lb.mark
    obtain ⟨hwf, hsize, hsucc, hblocks⟩ := ih (d := d₁) (Draft.wellFormed_addBlock.2 hd)
    rw [show d₁.size = d.size + 1 from Draft.size_addBlock] at hsize hblocks
    refine ⟨hwf, by rw [List.foldl_cons, hsize, List.length_cons]; omega, ?_, fun b => ?_⟩
    · rw [List.foldl_cons, hsucc]
      funext b
      exact Draft.successors_addBlock
    · rw [List.foldl_cons, hblocks, show d₁.blocks[b]? = _ from Draft.getElem?_addBlock]
      rcases Nat.lt_trichotomy b d.size with hb | hb | hb
      · rw [if_pos (by omega), if_neg (by omega), if_pos hb]
      · subst hb
        simp
      · have hi : b - d.size = b - (d.size + 1) + 1 := by omega
        rw [if_neg (by omega), if_neg (by omega), hi, List.getElem?_cons_succ]

theorem addBlocks_spec (m : MethodId) (depth : Nat) (blocks : List LocalBlock)
    (hd : d.WellFormed) :
    (addBlocks m depth blocks d).WellFormed ∧
      (addBlocks m depth blocks d).size = d.size + blocks.length ∧
      (∀ b, (addBlocks m depth blocks d).blocks[b]? = if b < d.size then d.blocks[b]? else
        blocks[b - d.size]?.map fun lb =>
          ⟨b, .body m lb.first lb.last depth, lb.copies, lb.mark⟩) ∧
      ∀ b x, x ∈ (addBlocks m depth blocks d).successors b ↔ x ∈ d.successors b ∨
        ∃ i lb, blocks[i]? = some lb ∧ b = d.size + i ∧ ∃ j ∈ lb.succs, x = d.size + j := by
  let d' := blocks.foldl
    (fun d b => d.addBlock (.body m b.first b.last depth) b.copies b.mark) d
  obtain ⟨hwf, hsize, hsucc, hblocks⟩ : _ ∧ d'.size = _ ∧ _ ∧ _ := foldl_addBlock hd
  have hsources : ∀ bi ∈ blocks.zipIdx, d.size + bi.2 < d'.size := by
    rintro ⟨lb, i⟩ hbi
    have := (List.getElem?_eq_some_iff.1 (List.mem_zipIdx_iff_getElem?.1 hbi)).1
    omega
  have hlinks : addBlocks m depth blocks d = blocks.zipIdx.foldl
      (fun d' bi => d'.linkAll (d.size + bi.2) (bi.1.succs.toList.map (d.size + ·))) d' := rfl
  rw [hlinks]
  refine ⟨?_, ?_, fun b => ?_, fun b x => ?_⟩
  · exact Draft.wellFormed_foldl_linkAll.2 hwf
  · exact Draft.size_foldl_linkAll.trans hsize
  · rw [Draft.blocks_foldl_linkAll]
    exact hblocks b
  · rw [Draft.mem_successors_foldl_linkAll hwf hsources, hsucc]
    simp only [Prod.exists, List.mem_zipIdx_iff_getElem?, List.mem_map, OrderedSet.mem_def]
    grind

theorem getElem?_wire (d : Draft) (p : PendingCall) (inst : Instance) (bind back : List Copy)
    (b : Nat) : (wire d p inst bind back).blocks[b]? =
      if b = d.size then some ⟨b, .enter p.callee p.depth, bind, none⟩
      else if b = d.size + 1 then some ⟨b, .leave p.callee p.depth, back, none⟩
      else d.blocks[b]? := by
  have hexits : ∀ (d' : Draft) (leave : Nat),
      (inst.exits.foldl (fun d e => d.link e leave) d').blocks = d'.blocks := by
    intro d' leave
    exact Draft.blocks_foldl_linkAll (f := fun e => e) (g := fun _ => [leave])
  simp only [wire, Draft.blocks_linkAll, hexits, Draft.blocks_link, Draft.blocks_unlink,
    Draft.getElem?_addBlock, Draft.size_addBlock]
  by_cases hb : b = d.size + 1
  · rw [if_pos hb, if_neg (by omega), if_pos hb]
  · rw [if_neg hb, if_neg hb]

/-- Once the two blocks are there, the call leads to the first one alone, which leads on to the
instance. -/
theorem opened_spec (p : PendingCall) (inst : Instance) {d₀ : Draft} (hd : d.WellFormed)
    (hsize : d.size = d₀.size + 2) (hsucc : d.successors = d₀.successors)
    (hblock : p.block < d₀.size) :
    let opened := ((d.unlink p.block).link p.block d₀.size).link d₀.size inst.entry
    opened.WellFormed ∧ opened.size = d.size ∧ ∀ b x, x ∈ opened.successors b ↔
      (x ∈ d₀.successors b ∧ b ≠ p.block) ∨ (b = p.block ∧ x = d₀.size) ∨
        (b = d₀.size ∧ x = inst.entry) := by
  have hwf : (d.unlink p.block).WellFormed := Draft.wellFormed_unlink.2 hd
  refine ⟨?_, rfl, fun b x => ?_⟩
  · exact Draft.wellFormed_link.2 (Draft.wellFormed_link.2 hwf)
  · have hcall : p.block < (d.unlink p.block).size := by
      rw [Draft.size_unlink]
      omega
    have henter : d₀.size < ((d.unlink p.block).link p.block d₀.size).size := by
      rw [Draft.size_link, Draft.size_unlink]
      omega
    rw [Draft.mem_successors_link (Draft.wellFormed_link.2 hwf) henter,
      Draft.mem_successors_link hwf hcall, Draft.successors_unlink, hsucc]
    split <;> simp_all

theorem wire_spec (p : PendingCall) (inst : Instance) (bind back : List Copy) (hd : d.WellFormed)
    (hblock : p.block < d.size) (hexits : ∀ e ∈ inst.exits, e < d.size)
    (hfresh : p.block ∉ inst.exits) :
    (wire d p inst bind back).WellFormed ∧ (wire d p inst bind back).size = d.size + 2 ∧
      ∀ b x, x ∈ (wire d p inst bind back).successors b ↔
        if b = p.block then x = d.size
        else if b = d.size then x = inst.entry
        else if b = d.size + 1 then x ∈ d.successors p.block
        else x ∈ d.successors b ∨ (b ∈ inst.exits ∧ x = d.size + 1) := by
  let added := (d.addBlock (.enter p.callee p.depth) bind none).addBlock
    (.leave p.callee p.depth) back none
  let opened := ((added.unlink p.block).link p.block d.size).link d.size inst.entry
  let closed := inst.exits.foldl (fun d' e => d'.linkAll e [d.size + 1]) opened
  have hadded : added.successors = d.successors := by
    funext b
    simp [added]
  have haddedSize : added.size = d.size + 2 := by simp [added]
  have hwire : wire d p inst bind back = closed.linkAll (d.size + 1) (d.successors p.block) := by
    rw [← hadded]
    rfl
  obtain ⟨hwf, hsize, hopened⟩ : opened.WellFormed ∧ opened.size = added.size ∧ _ :=
    opened_spec p inst (d := added) (by simpa [added] using hd) haddedSize hadded hblock
  have hclosed : closed.size = opened.size := Draft.size_foldl_linkAll
  rw [hwire]
  refine ⟨?_, ?_, fun b x => ?_⟩
  · exact Draft.wellFormed_linkAll.2 (Draft.wellFormed_foldl_linkAll.2 hwf)
  · rw [Draft.size_linkAll, hclosed, hsize, haddedSize]
  · have hnil : d.successors d.size = [] ∧ d.successors (d.size + 1) = [] :=
      ⟨Draft.successors_of_size_le hd (by omega), Draft.successors_of_size_le hd (by omega)⟩
    have hlt : d.size + 1 < closed.size := by omega
    have hlts : ∀ e ∈ inst.exits, e < opened.size := by
      intro e he
      have := hexits e he
      omega
    have hexit : ∀ e ∈ inst.exits, e ≠ p.block ∧ e < d.size := by
      intro e he
      exact ⟨fun h => hfresh (h ▸ he), hexits e he⟩
    rw [Draft.mem_successors_linkAll (Draft.wellFormed_foldl_linkAll.2 hwf) hlt,
      Draft.mem_successors_foldl_linkAll hwf hlts, hopened]
    by_cases hcall : b = p.block
    · subst hcall
      rw [if_pos rfl]
      grind
    · by_cases henter : b = d.size
      · subst henter
        grind
      · by_cases hleave : b = d.size + 1
        · subst hleave
          grind
        · grind

end Blocks

section Calls

variable {c : Call} {callee : MethodId} {receiver : Option Var} {st st' : Inlining}

theorem target_eq_ok {found : Option MethodId} (h : inl.target c = .ok found) :
    inl.callee? c = found := by
  unfold target at h
  unfold callee?
  split at h
  · next hr =>
    cases h
    rw [hr]
    rfl
  · next id hr =>
    obtain ⟨method, hm, h⟩ := bind_eq_ok.1 h
    have hm := orFault_eq_ok.1 hm
    rw [hr]
    cases hbody : method.hasBody <;> simp_all [Option.filter]

theorem target_ok (hv : inl.resolver.Valid inl.program) (c : Call) :
    inl.target c = .ok (inl.callee? c) := by
  suffices h : ∃ found, inl.target c = .ok found by
    obtain ⟨found, hf⟩ := h
    rw [hf, target_eq_ok hf]
  unfold target
  cases hr : inl.resolver inl.program c.callee with
  | none => exact ⟨none, rfl⟩
  | some id =>
    have hlt := hv _ _ hr
    have hm : inl.program.method id = .ok inl.program.methods[id] :=
      orFault_eq_ok.2 (List.getElem?_eq_getElem hlt)
    exact ⟨_, by simp only [hm, ok_bind]; rfl⟩

def pendingFor (inl : Inliner) (m : MethodId) (depth block : Nat) (c : Call) :
    Option PendingCall :=
  (inl.callee? c).bind fun callee =>
    if depth < inl.maxDepth then some ⟨block, m, c, callee, depth + 1⟩ else none

theorem classifyCall_spec {call? : Option PendingCall}
    (h : inl.classifyCall m depth b c st = .ok (call?, st')) :
    call? = inl.pendingFor m depth b c ∧
      (st'.draft = st.draft ∧ st'.table = st.table ∧ st'.methods = st.methods) ∧
      (st'.stats.Exhaustive → st.stats.Exhaustive ∧ call? ≠ none) := by
  obtain ⟨found, hfound, h⟩ := bind_eq_ok.1 h
  rw [pendingFor, target_eq_ok hfound]
  cases found with
  | none =>
    cases h
    refine ⟨rfl, ⟨rfl, rfl, rfl⟩, fun hex => ?_⟩
    exact absurd hex.2 (Nat.succ_ne_zero _)
  | some callee =>
    simp only at h
    split at h
    · next hd =>
      cases h
      refine ⟨by simp [hd], ⟨rfl, rfl, rfl⟩, fun hex => ⟨hex, by simp⟩⟩
    · next hd =>
      obtain ⟨method, -, h⟩ := bind_eq_ok.1 h
      cases h
      refine ⟨by simp [hd], ⟨rfl, rfl, rfl⟩, fun hex => ?_⟩
      exact absurd hex.1 (Nat.succ_ne_zero _)

theorem classifyCall_ok (hv : inl.resolver.Valid inl.program) (m : MethodId) (depth b : Nat)
    (c : Call) (st : Inlining) : ∃ r, inl.classifyCall m depth b c st = .ok r := by
  unfold classifyCall
  simp only [target_ok hv, ok_bind]
  cases hc : inl.callee? c with
  | none => exact ⟨_, rfl⟩
  | some callee =>
    obtain ⟨-, method, hm, -⟩ := callee?_eq_some.1 hc
    have hmethod : inl.program.method callee = .ok method := orFault_eq_ok.2 hm
    simp only [hmethod]
    split
    · exact ⟨_, rfl⟩
    · exact ⟨_, rfl⟩

def pendingOf (inl : Inliner) (m : MethodId) (depth base : Nat) (bis : List (LocalBlock × Nat)) :
    List PendingCall :=
  bis.filterMap fun bi => bi.1.call.bind fun ic => inl.pendingFor m depth (base + bi.2) ic.2

theorem classifyCalls_spec {base : Nat} {bis : List (LocalBlock × Nat)} {calls : List PendingCall}
    (h : inl.classifyCalls m depth base bis st = .ok (calls, st')) :
    calls = inl.pendingOf m depth base bis ∧
      (st'.draft = st.draft ∧ st'.table = st.table ∧ st'.methods = st.methods) ∧
      (st'.stats.Exhaustive → st.stats.Exhaustive ∧ ∀ bi ∈ bis, ∀ ic, bi.1.call = some ic →
        inl.pendingFor m depth (base + bi.2) ic.2 ≠ none) := by
  induction bis generalizing st calls with
  | nil =>
    cases h
    exact ⟨rfl, ⟨rfl, rfl, rfl⟩, fun hex => ⟨hex, by simp⟩⟩
  | cons bi bis ih =>
    obtain ⟨lb, i⟩ := bi
    rw [classifyCalls] at h
    cases hcall : lb.call with
    | none =>
      rw [hcall] at h
      obtain ⟨hcalls, hsame, hex⟩ := ih h
      refine ⟨by simp [hcalls, pendingOf, hcall], hsame, fun hst => ?_⟩
      refine ⟨(hex hst).1, fun bi hbi ic hic => ?_⟩
      rcases List.mem_cons.1 hbi with rfl | hbi
      · rw [hcall] at hic
        cases hic
      · exact (hex hst).2 bi hbi ic hic
    | some ic =>
      rw [hcall] at h
      obtain ⟨⟨call?, st₁⟩, h₁, h⟩ := bind_eq_ok.1 h
      obtain ⟨⟨calls', st₂⟩, h₂, h⟩ := bind_eq_ok.1 h
      cases h
      obtain ⟨hcall?, ⟨hd₁, ht₁, hm₁⟩, hex₁⟩ := classifyCall_spec h₁
      obtain ⟨hcalls, ⟨hd₂, ht₂, hm₂⟩, hex₂⟩ := ih h₂
      refine ⟨?_, ⟨hd₂.trans hd₁, ht₂.trans ht₁, hm₂.trans hm₁⟩, fun hst => ?_⟩
      · rw [hcalls, hcall?]
        simp only [pendingOf, List.filterMap_cons, hcall, Option.bind_some]
        cases inl.pendingFor m depth (base + i) ic.2 <;> rfl
      · obtain ⟨hst₁, hrest⟩ := hex₂ hst
        refine ⟨(hex₁ hst₁).1, fun bi hbi ic' hic => ?_⟩
        rcases List.mem_cons.1 hbi with rfl | hbi
        · rw [hcall] at hic
          cases hic
          exact hcall? ▸ (hex₁ hst₁).2
        · exact hrest bi hbi ic' hic

theorem classifyCalls_ok (hv : inl.resolver.Valid inl.program) (m : MethodId) (depth base : Nat)
    (bis : List (LocalBlock × Nat)) (st : Inlining) :
    ∃ r, inl.classifyCalls m depth base bis st = .ok r := by
  induction bis generalizing st with
  | nil => exact ⟨_, rfl⟩
  | cons bi bis ih =>
    rw [classifyCalls]
    cases bi.1.call with
    | none => exact ih st
    | some ic =>
      obtain ⟨⟨call?, st₁⟩, h₁⟩ := classifyCall_ok hv m depth (base + bi.2) ic.2 st
      obtain ⟨⟨calls, st₂⟩, h₂⟩ := ih st₁
      exact ⟨_, by simp only [h₁, h₂, ok_bind]; rfl⟩

end Calls

section Instances

variable {receiver : Option Var} {st st' : Inlining} {inst : Instance} {t : PointerTable}

theorem numbers_blocks (inl : Inliner) (m : MethodId) (receiver : Option Var) :
    Numbers (fun _ => True) (methodBlocks inl.hooks m (inl.stmtsOf m) receiver) :=
  numbers_methodBlocks _ _ _ _ fun _ _ _ _ => trivial

theorem instantiate_spec (h : inl.instantiate m receiver depth st = .ok (inst, st')) :
    st.table ≤ st'.table ∧ (inl.program.method? m).isSome = true ∧
    (st'.stats.Exhaustive → st.stats.Exhaustive) ∧ st'.methods = st.methods.insert m ∧
    ∀ t, st'.table ≤ t →
      let blocks := inl.blocksOf t m receiver
      (methodBlocks inl.hooks m (inl.stmtsOf m) receiver t).2 = t ∧
      st'.draft = addBlocks m depth blocks st.draft ∧
      inst = ⟨st.draft.size, (exitsOf blocks).map (st.draft.size + ·),
        inl.pendingOf m depth st.draft.size blocks.zipIdx⟩ ∧
      (st'.stats.Exhaustive → ∀ bi ∈ blocks.zipIdx, ∀ ic, bi.1.call = some ic →
        inl.pendingFor m depth (st.draft.size + bi.2) ic.2 ≠ none) := by
  obtain ⟨method, hm, h⟩ := bind_eq_ok.1 h
  have hm : inl.program.method? m = some method := orFault_eq_ok.1 hm
  obtain ⟨⟨calls, st₁⟩, hcalls, h⟩ := bind_eq_ok.1 h
  cases h
  obtain ⟨rfl, ⟨hdraft, htable, hmethods⟩, hex⟩ := classifyCalls_spec hcalls
  have hstmts : inl.stmtsOf m = method.stmts := stmtsOf_eq hm
  have hnum := hstmts ▸ numbers_blocks inl m receiver
  refine ⟨?_, by rw [hm]; rfl, fun hst => (hex hst).1, hmethods, fun t ht => ?_⟩
  · rw [htable]
    exact hnum.extends_table st.table
  · rw [htable] at ht
    have hblocks : inl.blocksOf t m receiver =
        (methodBlocks inl.hooks m method.stmts receiver st.table).1 := by
      rw [blocksOf, hstmts, hnum.stable st.table t ht]
    rw [hblocks, hstmts, hnum.stable st.table t ht]
    exact ⟨rfl, hdraft, rfl, fun hst => (hex hst).2⟩

theorem instantiate_table (h : inl.instantiate m receiver depth st = .ok (inst, st')) :
    st'.table = (methodBlocks inl.hooks m (inl.stmtsOf m) receiver st.table).2 := by
  obtain ⟨method, hm, h⟩ := bind_eq_ok.1 h
  have hm : inl.program.method? m = some method := orFault_eq_ok.1 hm
  obtain ⟨⟨calls, st₁⟩, hcalls, h⟩ := bind_eq_ok.1 h
  cases h
  obtain ⟨-, ⟨-, htable, -⟩, -⟩ := classifyCalls_spec hcalls
  rw [htable, stmtsOf, hm]
  rfl

theorem instantiate_ok (hv : inl.resolver.Valid inl.program)
    (hm : (inl.program.method? m).isSome = true) (receiver : Option Var) (depth : Nat)
    (st : Inlining) : ∃ r, inl.instantiate m receiver depth st = .ok r := by
  obtain ⟨method, hm⟩ := Option.isSome_iff_exists.1 hm
  have hmethod : inl.program.method m = .ok method := orFault_eq_ok.2 hm
  unfold instantiate
  simp only [hmethod, ok_bind]
  generalize hst : Inlining.mk _ _ _ _ _ _ = st₁
  obtain ⟨⟨calls, st₂⟩, hcalls⟩ := classifyCalls_ok hv m depth st.draft.size
    (methodBlocks inl.hooks m method.stmts receiver st.table).1.zipIdx st₁
  exact ⟨_, by simp only [hcalls, ok_bind]; rfl⟩

theorem splice_eq_ok {p : PendingCall} (h : inl.splice p st = .ok (inst, st')) :
    ∃ st₁ method,
      inl.instantiate p.callee (receiverOf p.caller p.call) p.depth
        { st with table := (internReceiver st.table (receiverOf p.caller p.call)).2 } =
          .ok (inst, st₁) ∧
      inl.program.method? p.callee = some method ∧
      let numbered := numberPairs st₁.table (bindings p.caller p.call p.callee method)
      st'.draft = wire st₁.draft p inst (bindCopies numbered.1)
        (writeBackCopies (internReceiver st.table (receiverOf p.caller p.call)).1 numbered.1) ∧
      st'.table = numbered.2 ∧ st'.methods = st₁.methods ∧
      (st'.stats.Exhaustive ↔ st₁.stats.Exhaustive) := by
  obtain ⟨⟨inst', st₁⟩, hinst, h⟩ := bind_eq_ok.1 h
  obtain ⟨method, hm, h⟩ := bind_eq_ok.1 h
  cases h
  exact ⟨st₁, method, hinst, orFault_eq_ok.1 hm, rfl, rfl, rfl, Iff.rfl⟩

/-- A spliced call: the instance of its callee, wired to the call's block. -/
theorem splice_spec {p : PendingCall} (h : inl.splice p st = .ok (inst, st')) :
    st.table ≤ st'.table ∧
    (st'.stats.Exhaustive → st.stats.Exhaustive) ∧ st'.methods = st.methods.insert p.callee ∧
    ∀ t, st'.table ≤ t →
      let receiver := receiverOf p.caller p.call
      let blocks := inl.blocksOf t p.callee receiver
      let vars := inl.passedTo p.caller p.call p.callee
      (methodBlocks inl.hooks p.callee (inl.stmtsOf p.callee) receiver t).2 = t ∧
      ((∀ r ∈ receiver, .var r ∈ t.pointers) ∧
        ∀ v ∈ vars, .var v.1 ∈ t.pointers ∧ .var v.2 ∈ t.pointers) ∧
      st'.draft = wire (addBlocks p.callee p.depth blocks st.draft) p inst (callCopies t vars)
        (callCopies t (writtenBack receiver vars)) ∧
      inst = ⟨st.draft.size, (exitsOf blocks).map (st.draft.size + ·),
        inl.pendingOf p.callee p.depth st.draft.size blocks.zipIdx⟩ ∧
      (st'.stats.Exhaustive → ∀ bi ∈ blocks.zipIdx, ∀ ic, bi.1.call = some ic →
        inl.pendingFor p.callee p.depth (st.draft.size + bi.2) ic.2 ≠ none) := by
  obtain ⟨st₁, method, hinst, hm, hdraft, htable, hmethods, hstats⟩ := splice_eq_ok h
  obtain ⟨hle, -, hexh, hmethods₁, hspec⟩ := instantiate_spec hinst
  have hreceiver : Numbers (fun _ => True) fun t => internReceiver t (receiverOf p.caller p.call) :=
    numbers_internReceiver _ fun _ => trivial
  have hpairs : Numbers (fun _ => True) fun t =>
      numberPairs t (bindings p.caller p.call p.callee method) :=
    numbers_numberPairs _ fun _ => trivial
  have hbefore : (internReceiver st.table (receiverOf p.caller p.call)).2 ≤ st'.table :=
    PointerTable.le_trans hle (htable ▸ hpairs.extends_table st₁.table)
  refine ⟨PointerTable.le_trans (hreceiver.extends_table st.table) hbefore,
    fun hst => hexh (hstats.1 hst), hmethods.trans hmethods₁, fun t ht => ?_⟩
  obtain ⟨hblocks, hdraft₁, hinst, hex⟩ :=
    hspec t (PointerTable.le_trans (htable ▸ hpairs.extends_table st₁.table) ht)
  have hstable := hpairs.stable st₁.table t (htable ▸ ht)
  have hr : internReceiver t (receiverOf p.caller p.call) =
      ((internReceiver st.table (receiverOf p.caller p.call)).1, t) :=
    hreceiver.stable st.table t (PointerTable.le_trans hbefore ht)
  rw [bindings_eq, ← passedTo_eq hm] at hdraft hstable
  have hfixed : (numberPairs t (inl.passedTo p.caller p.call p.callee)).2 = t := by rw [hstable]
  have hnumbered : (internReceiver t (receiverOf p.caller p.call)).2 = t := by rw [hr]
  refine ⟨hblocks, ⟨receiver_mem_of_fixed hnumbered, fun v hv => mem_pointers_of_fixed hfixed hv⟩,
    ?_, hinst, fun hst => hex (hstats.1 hst)⟩
  rw [← bindCopies_fixed hfixed, ← writeBackCopies_fixed hfixed hnumbered, hdraft, hdraft₁, hstable,
    hr]

theorem splice_ok (hv : inl.resolver.Valid inl.program) {p : PendingCall}
    (hp : (inl.program.method? p.callee).isSome = true) (st : Inlining) :
    ∃ r, inl.splice p st = .ok r := by
  obtain ⟨method, hm⟩ := Option.isSome_iff_exists.1 hp
  have hmethod : inl.program.method p.callee = .ok method := orFault_eq_ok.2 hm
  obtain ⟨⟨inst, st₁⟩, hinst⟩ := instantiate_ok hv hp (receiverOf p.caller p.call) p.depth
    { st with table := (internReceiver st.table (receiverOf p.caller p.call)).2 }
  rw [receiverOf] at hinst
  exact ⟨_, by simp only [splice, hinst, hmethod, ok_bind]; rfl⟩

end Instances

end Inliner

end PointsTo
