import PointsTo.Proofs.Inline.Realization

/-! Every moment of inlining. What a turn looks up exists: the statements of a block, the blocks to
link, the methods and calls that wait, and the pointers that copies and marks name. -/
namespace PointsTo

structure LocalBlock.Inside (stmts : List Stmt) (count : Nat) (b : LocalBlock) : Prop where
  first : b.first ≤ b.last
  last : b.last < stmts.length
  succs : ∀ k ∈ b.succs, k < count
  call : ∀ x c, b.call = some (x, c) → stmts[x]? = some (.call c)

theorem methodBlocks_inside (h : Recognizer) (m : MethodId) (stmts : List Stmt)
    (receiver : Option Var) (t : PointerTable) : ∀ b ∈ (methodBlocks h m stmts receiver t).1,
      b.Inside stmts (methodBlocks h m stmts receiver t).1.length := by
  -- the numbers are those of the table that results
  have hnumbers : Numbers (fun _ => True) (methodBlocks h m stmts receiver) :=
    numbers_methodBlocks _ _ _ _ fun _ _ _ _ => trivial
  have hstable := hnumbers.stable t _ (PointerTable.le_refl _)
  have hfixed : (methodBlocks h m stmts receiver (methodBlocks h m stmts receiver t).2).2 =
      (methodBlocks h m stmts receiver t).2 := by rw [hstable]
  have hsame : (methodBlocks h m stmts receiver t).1 =
      (methodBlocks h m stmts receiver (methodBlocks h m stmts receiver t).2).1 := by rw [hstable]
  rw [hsame]
  intro b hb
  obtain ⟨i, hi⟩ := List.mem_iff_getElem?.1 hb
  obtain ⟨hfirst, hlast⟩ := block_bounds hi
  have hs := List.getElem?_eq_getElem hlast
  constructor
  case first => exact hfirst
  case last => exact hlast
  case succs => exact fun k hk => succs_inside hb hk
  case call =>
    intro x c hcall
    rw [block_call_eq hfixed hi hs, Option.map_eq_some_iff] at hcall
    obtain ⟨c', hc, heq⟩ := hcall
    cases heq
    rw [hs, (effect_call?.1 hc).1]

structure Block.Registered (t : PointerTable) (b : Block) : Prop where
  copies : ∀ c ∈ b.copies, c.target < t.size ∧ c.source < t.size
  traced : ∀ mark, b.mark = some mark → mark.traced < t.size

theorem PointerTable.lt_size_of_get? {t : PointerTable} {n : Nat} {p : Pointer}
    (h : t.get? n = some p) : n < t.size :=
  (Array.getElem?_eq_some_iff.1 h).1

theorem Copy.Names.lt_size {t : PointerTable} {c : Copy} {pair : Pointer × Pointer}
    (h : c.Names t pair) : c.target < t.size ∧ c.source < t.size :=
  ⟨PointerTable.lt_size_of_get? h.1, PointerTable.lt_size_of_get? h.2⟩

namespace Inliner

variable {inl : Inliner} {entry : MethodId} {t : PointerTable} {p : Point} {b : Nat}
  {stack : List PendingCall} {st : Inlining} {pts : List Point}

theorem mark_registered (hn : inl.Numbered t p) {block : Block}
    (h : inl.blockFor t b p = some block) {mark : TestMark} (hmark : block.mark = some mark) :
    mark.traced < t.size := by
  cases p with
  | block a cs =>
    obtain ⟨lb, hlb, rfl⟩ := Option.map_eq_some_iff.1 h
    have hlb : (methodBlocks inl.hooks a.method (inl.stmtsOf a.method) a.receiver t).1[a.block]? =
        some lb := hlb
    have hrel := mark_denotes hn hlb (List.getElem?_eq_getElem (block_bounds hlb).2)
    rw [show lb.mark = some mark from hmark] at hrel
    generalize Effect.test? _ = test at hrel
    cases hrel with
    | some hnames => exact PointerTable.lt_size_of_get? hnames.2
  | enter a cs =>
    obtain ⟨found, -, rfl⟩ := Option.map_eq_some_iff.1 h
    cases hmark
  | leave a cs =>
    obtain ⟨found, -, rfl⟩ := Option.map_eq_some_iff.1 h
    cases hmark

theorem blockFor_registered (hn : inl.Numbered t p) {block : Block}
    (h : inl.blockFor t b p = some block) : block.Registered t := by
  constructor
  case copies =>
    intro c hc
    rw [copies_eq_copiesAt h] at hc
    obtain ⟨pair, -, hnames⟩ := exists_name_of_copy (Numbered.names hn) hc
    exact hnames.lt_size
  case traced => exact fun mark hmark => mark_registered hn h hmark

/-- The calls that wait, the next one on top, and what is built, at a moment of inlining. -/
inductive Moment (inl : Inliner) (entry : MethodId) : List PendingCall → Inlining → Prop where
  | start {root st} : inl.instantiate entry none 0 (.start ∅) = .ok (root, st) →
      Moment inl entry root.calls.reverse st
  | turn {w stack st inst st'} : Moment inl entry (w :: stack) st →
      inl.splice w st = .ok (inst, st') → Moment inl entry (inst.calls.reverse ++ stack) st'

theorem run_moment {i : Inlined} (h : inl.run entry = .ok (some i)) :
    ∃ st, inl.Moment entry [] st ∧ i.draft = st.draft ∧ i.table = st.table := by
  obtain ⟨-, root, st, st', hroot, hdrains, hdraft, -, htable, -⟩ := run_builds h
  refine ⟨st', ?_, hdraft, htable⟩
  have hstart : inl.Moment entry root.calls.reverse st := .start hroot
  clear hroot hdraft htable
  generalize root.calls.reverse = stack at hdrains hstart
  induction hdrains with
  | done => exact hstart
  | turn hsplice _ ih => exact ih (.turn hstart hsplice)

theorem Moment.layout (h : inl.Moment entry stack st) :
    ∀ t, st.table ≤ t → ∃ pts, Layout inl t st pts stack := by
  induction h with
  | start hroot =>
    intro t ht
    obtain ⟨-, hl⟩ := start_layout hroot ht
    exact ⟨_, hl.perm (List.reverse_perm _).symm⟩
  | turn _ hsplice ih =>
    intro t ht
    obtain ⟨pts, hl⟩ := ih t (PointerTable.le_trans (splice_spec hsplice).1 ht)
    obtain ⟨pts', -, hl'⟩ := splice_layout hl hsplice ht
    exact ⟨pts', hl'.perm ((List.reverse_perm _).symm.append_right _)⟩

theorem Moment.methods (h : inl.Moment entry stack st) :
    ∀ m ∈ st.methods, (inl.program.method? m).isSome = true := by
  induction h with
  | start hroot =>
    obtain ⟨-, hentry, -, hmethods, -⟩ := instantiate_spec hroot
    intro m hm
    rw [hmethods] at hm
    obtain rfl := (OrderedSet.mem_insert.1 hm).resolve_right (OrderedSet.not_mem_empty m)
    exact hentry
  | turn _ hsplice ih =>
    obtain ⟨-, method, -, hcallee, -⟩ := splice_eq_ok hsplice
    obtain ⟨-, -, hmethods, -⟩ := splice_spec hsplice
    intro m hm
    rw [hmethods] at hm
    rcases OrderedSet.mem_insert.1 hm with rfl | hm
    · rw [hcallee]
      rfl
    · exact ih m hm

/-- What a turn looks up when it splices a call: the call in its statement, its block, and its
callee. The new instance lies in the draft when it is linked. -/
structure Ready (inl : Inliner) (st : Inlining) (w : PendingCall) : Prop where
  block : w.block < st.draft.size
  stmt : ∃ (method : Method) (x : Nat), inl.program.method? w.caller = some method ∧
    method.stmts[x]? = some (.call w.call)
  callee : ∃ method, inl.program.method? w.callee = some method ∧ method.hasBody = true
  splices : ∃ inst st', inl.splice w st = .ok (inst, st') ∧ inst.entry < st'.draft.size ∧
    ∀ e ∈ inst.exits, e < st'.draft.size

structure InRange (inl : Inliner) (stack : List PendingCall) (st : Inlining) : Prop where
  aligned : st.draft.succs.size = st.draft.blocks.size
  inside : ∀ b, ∀ k ∈ st.draft.successors b, k < st.draft.size
  blocks : ∀ (b : Nat) (block : Block), st.draft.blocks[b]? = some block →
    block.id = b ∧ block.Registered st.table
  methods : ∀ m ∈ st.methods, (inl.program.method? m).isSome = true
  waiting : ∀ w ∈ stack, inl.Ready st w

theorem ready_of_waits (hv : inl.resolver.Valid inl.program) {w : PendingCall}
    {site : Activation} {callers : List Activation} (hl : Layout inl t st pts stack)
    (hw : Waits inl t st.draft pts w site callers) : inl.Ready st w := by
  obtain ⟨hcall, hcallee, -⟩ := entered_eq_some.1 hw.entered
  obtain ⟨-, method, hmethod, hbody⟩ := callee?_eq_some.1 hcallee
  have hblock : w.block < st.draft.size :=
    hl.size ▸ (List.getElem?_eq_some_iff.1 hw.at_block).1
  constructor
  case block => exact hblock
  case stmt =>
    obtain ⟨lb, hlb, hlc⟩ := Option.bind_eq_some_iff.1 hcall
    obtain ⟨⟨x, c⟩, hc, heq⟩ := Option.map_eq_some_iff.1 hlc
    have hinside := methodBlocks_inside inl.hooks site.method (inl.stmtsOf site.method)
      site.receiver t lb (List.mem_of_getElem? hlb)
    have hx := hinside.call x c hc
    rw [stmtsOf, ← hw.caller] at hx
    cases hm : inl.program.method? w.caller with
    | none =>
      rw [hm] at hx
      cases hx
    | some caller =>
      rw [hm] at hx
      exact ⟨caller, x, rfl, heq ▸ hx⟩
  case callee => exact ⟨method, hmethod, hbody⟩
  case splices =>
    obtain ⟨⟨inst, st'⟩, hsplice⟩ := splice_ok hv (p := w) (by rw [hmethod]; rfl) st
    obtain ⟨-, -, -, hspec⟩ := splice_spec hsplice
    obtain ⟨-, -, hdraft, hinst, -⟩ := hspec st'.table (PointerTable.le_refl _)
    have hsize : st'.draft.size = st.draft.size +
        (inl.blocksOf st'.table w.callee (receiverOf w.caller w.call)).length + 2 := by
      rw [hdraft, hinst]
      exact (rewired hl.wellFormed hblock).size
    refine ⟨inst, st', hsplice, ?_, ?_⟩
    · rw [hinst]
      change st.draft.size < _
      omega
    · intro e he
      rw [hinst] at he
      obtain ⟨i, hi, rfl⟩ := List.mem_map.1 he
      obtain ⟨lb, hlb, -⟩ := mem_exitsOf.1 hi
      have := (List.getElem?_eq_some_iff.1 hlb).1
      omega

theorem Layout.registered (h : Layout inl t st pts stack) {block : Block}
    (hb : st.draft.blocks[b]? = some block) : block.id = b ∧ block.Registered t := by
  have hlt : b < pts.length := by
    rw [h.size]
    exact (Array.getElem?_eq_some_iff.1 hb).1
  have hfor := h.content b _ (List.getElem?_eq_getElem hlt)
  rw [hb] at hfor
  exact ⟨blockFor_id hfor.symm,
    blockFor_registered (h.numbered _ (List.getElem_mem hlt)) hfor.symm⟩

/-- Whatever a turn of the loop looks up is there. -/
theorem Moment.in_range (hv : inl.resolver.Valid inl.program) (h : inl.Moment entry stack st) :
    inl.InRange stack st := by
  obtain ⟨pts, hl⟩ := h.layout st.table (PointerTable.le_refl _)
  constructor
  case aligned => exact hl.wellFormed
  case inside => exact hl.inside
  case blocks => exact fun b block hb => hl.registered hb
  case methods => exact h.methods
  case waiting =>
    intro w hw
    obtain ⟨site, callers, hwaits⟩ := hl.waits w hw
    exact ready_of_waits hv hl hwaits

end Inliner

end PointsTo
