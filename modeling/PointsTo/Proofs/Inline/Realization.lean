import PointsTo.Proofs.Inline.Loop

/-! The inlined graph is the graph that is defined by recursion, with numbers for its blocks and its
pointers. -/
namespace PointsTo

/-- A numbered graph is the named one. Block `b` is the block of the point `place b`, and the
numbers that it copies between are those of the pointers. -/
structure Inlined.Realizes (i : Inlined) (f : Fragment) (place : Nat → Point) : Prop where
  places : ((List.range i.draft.size).map place).Perm f.places
  distinct : f.places.Nodup
  blocks : ∀ b < i.draft.size, ∃ block n, i.draft.blocks[b]? = some block ∧ block.id = b ∧
    (place b, n) ∈ f.nodes ∧ block.Denotes i.table n
  edges : ∀ p q, (p, q) ∈ f.edges ↔
    ∃ b < i.draft.size, ∃ c ∈ i.draft.successors b, place b = p ∧ place c = q
  inside : ∀ b, ∀ c ∈ i.draft.successors b, b < i.draft.size ∧ c < i.draft.size
  simple : i.draft.Simple
  exits : ∀ b < i.draft.size, place b ∈ f.exits ↔ i.draft.successors b = []
  methods : ∀ m, m ∈ i.methods ↔ m ∈ f.methods
  unresolved : ∀ n, n ∈ i.unresolved ↔ n ∈ f.unresolved
  stats : i.stats = f.stats

namespace Inliner

variable {inl : Inliner} {m : MethodId} {receiver : Option Var} {st st' : Inlining}
  {stack : List PendingCall}

section Simple

variable {d : Draft} {inst : Instance}

theorem addBlocks_simple (m : MethodId) (depth : Nat) (blocks : List LocalBlock) (h : d.Simple) :
    (addBlocks m depth blocks d).Simple := by
  apply Draft.simple_foldl
  · intro d x hd
    exact hd.linkAll
  · apply Draft.simple_foldl
    · intro d x hd
      exact hd.addBlock
    · exact h

theorem wire_simple (p : PendingCall) (bind back : List Copy) (h : d.Simple) :
    (wire d p inst bind back).Simple := by
  apply Draft.Simple.linkAll
  apply Draft.simple_foldl
  · intro d x hd
    exact hd.link
  · exact h.addBlock.addBlock.unlink.link.link

theorem instantiate_simple {depth : Nat} (h : inl.instantiate m receiver depth st = .ok (inst, st'))
    (hd : st.draft.Simple) : st'.draft.Simple := by
  obtain ⟨-, -, -, -, hspec⟩ := instantiate_spec h
  obtain ⟨-, hdraft, -⟩ := hspec st'.table (PointerTable.le_refl _)
  rw [hdraft]
  exact addBlocks_simple _ _ _ hd

theorem Drains.simple (h : inl.Drains stack st st') (hd : st.draft.Simple) : st'.draft.Simple := by
  induction h with
  | done => exact hd
  | turn hsplice _ ih =>
    obtain ⟨st₁, method, hinst, -, hdraft, -⟩ := splice_eq_ok hsplice
    apply ih
    rw [hdraft]
    exact wire_simple _ _ _ (instantiate_simple hinst hd)

end Simple

def Builds (inl : Inliner) (entry : MethodId) (i : Inlined) : Prop :=
  ∃ root st st', inl.instantiate entry none 0 (.start ∅) = .ok (root, st) ∧
    inl.Drains root.calls.reverse st st' ∧ i.draft = st'.draft ∧ i.entry = root.entry ∧
    i.table = st'.table ∧ i.methods = st'.methods ∧ i.unresolved = st'.unresolved ∧
    i.stats = st'.stats

variable {entry : MethodId} {i : Inlined}

theorem run_builds (h : inl.run entry = .ok (some i)) :
    inl.stmtsOf entry ≠ [] ∧ inl.Builds entry i := by
  obtain ⟨hs, root, st, st', hroot, hst, _, rfl⟩ := run_expands h
  have hdrains := hst.drains (root_inLevels hroot) .done
  rw [List.append_nil] at hdrains
  exact ⟨hs, root, st, st', hroot, hdrains, rfl, rfl, rfl, rfl, rfl, rfl⟩

theorem map_pointOf (entry : MethodId) (pts : List Point) :
    (List.range pts.length).map (pointOf entry pts) = pts := by
  refine List.ext_getElem (by simp) fun b hb hb' => ?_
  rw [List.getElem_map, List.getElem_range, pointOf_eq (List.getElem?_eq_getElem hb')]

section Filled

variable {t : PointerTable} {pts : List Point} {b : Nat} {p q : Point}
  (hl : Layout inl t st pts []) (hplaces : pts.Perm (inl.graphOf entry none []).places)

include hl

theorem getElem?_pointOf (entry : MethodId) (hb : b < st.draft.size) :
    pts[b]? = some (pointOf entry pts b) := by
  have hget := List.getElem?_eq_getElem (hl.size.symm ▸ hb)
  rw [pointOf_eq hget, hget]

theorem edge_inside {c : Nat} (hc : c ∈ st.draft.successors b) :
    b < st.draft.size ∧ c < st.draft.size := by
  refine ⟨?_, hl.inside b c hc⟩
  by_contra hge
  rw [Draft.successors_of_size_le hl.wellFormed (Nat.le_of_not_lt hge)] at hc
  cases hc

include hplaces

theorem numbered_of_filled (hp : p ∈ (inl.graphOf entry none []).places) : inl.Numbered t p :=
  hl.numbered p (hplaces.mem_iff.2 hp)

theorem denotes_of_filled (hb : b < st.draft.size) :
    ∃ block n, st.draft.blocks[b]? = some block ∧ block.id = b ∧
      (pointOf entry pts b, n) ∈ (inl.graphOf entry none []).nodes ∧ block.Denotes t n := by
  have hplace := getElem?_pointOf hl entry hb
  obtain ⟨⟨p, n⟩, hmem, hp⟩ := List.mem_map.1 (hplaces.mem_iff.1 (List.mem_of_getElem? hplace))
  have hblock := Array.getElem?_eq_getElem (show b < st.draft.blocks.size from hb)
  have hfor := (hl.content b _ hplace).symm.trans hblock
  refine ⟨_, n, hblock, blockFor_id hfor, hp ▸ hmem, ?_⟩
  exact denotes_of_mem_nodes (fun p hp => numbered_of_filled hl hplaces hp) hmem (hp ▸ hfor)

theorem mem_edges_of_filled : (p, q) ∈ (inl.graphOf entry none []).edges ↔
    ∃ b < st.draft.size, ∃ c ∈ st.draft.successors b,
      pointOf entry pts b = p ∧ pointOf entry pts c = q := by
  rw [mem_edges_graphOf fun p hp => numbered_of_filled hl hplaces hp, ← hplaces.mem_iff]
  constructor
  · rintro ⟨hp, hq, -⟩
    obtain ⟨b, hb⟩ := List.mem_iff_getElem?.1 hp
    obtain ⟨c, hc, hq⟩ := (hl.step_iff hb).1 hq
    have hlt := (List.getElem?_eq_some_iff.1 hb).1
    exact ⟨b, hl.size ▸ hlt, c, hc, pointOf_eq hb, pointOf_eq hq⟩
  · rintro ⟨b, hb, c, hc, rfl, rfl⟩
    have hp := getElem?_pointOf hl entry hb
    have hq := getElem?_pointOf hl entry (hl.inside b c hc)
    exact ⟨List.mem_of_getElem? hp, (hl.step_iff hp).2 ⟨c, hc, hq⟩, List.not_mem_nil⟩

theorem mem_exits_of_filled (hb : b < st.draft.size) :
    pointOf entry pts b ∈ (inl.graphOf entry none []).exits ↔ st.draft.successors b = [] := by
  have hp := getElem?_pointOf hl entry hb
  rw [mem_exits_graphOf fun p hp => numbered_of_filled hl hplaces hp, ← hplaces.mem_iff]
  constructor
  · rintro ⟨-, hout⟩
    refine List.eq_nil_iff_forall_not_mem.2 fun c hc => ?_
    have hq := getElem?_pointOf hl entry (hl.inside b c hc)
    exact List.not_mem_nil (hout _ ((hl.step_iff hp).2 ⟨c, hc, hq⟩))
  · intro hnil
    refine ⟨List.mem_of_getElem? hp, fun q hq => ?_⟩
    obtain ⟨c, hc, -⟩ := (hl.step_iff hp).1 hq
    rw [hnil] at hc
    cases hc

end Filled

/-- The places of the result are those of the graph that is defined by recursion: no call waits. -/
theorem Builds.filled (hs : inl.stmtsOf entry ≠ []) (h : inl.Builds entry i) :
    ∃ st pts, Layout inl i.table st pts [] ∧
      inl.Balanced (inl.graphOf entry none []) st pts [] ∧ pts[0]? = some (startPoint entry) ∧
      i.entry = 0 ∧ i.draft = st.draft ∧ i.methods = st.methods ∧ i.unresolved = st.unresolved ∧
      i.stats = st.stats := by
  obtain ⟨root, st, st', hroot, hdrains, hdraft, hentry, htable, hmethods, hunresolved, hstats⟩ := h
  have ht := hdrains.extends_table
  obtain ⟨hzero, hl₀⟩ := start_layout hroot ht
  have hb₀ := start_balanced hroot ht
  obtain ⟨pts, hprefix, hl, hb⟩ := hdrains.fills (hl₀.perm root.calls.reverse_perm.symm)
    (hb₀.perm root.calls.reverse_perm.symm) (PointerTable.le_refl _)
  refine ⟨st', pts, htable ▸ hl, hb, ?_, hentry.trans hzero, hdraft, hmethods, hunresolved,
    hstats⟩
  have hpos : 0 < (inl.blocksOf st'.table entry none).length := methodBlocks_pos hs
  obtain ⟨tail, rfl⟩ := hprefix
  rw [List.getElem?_append_left (by simpa using hpos), getElem?_instancePoints hpos]
  rfl

theorem Balanced.perm_places {f : Fragment} {pts : List Point} (h : inl.Balanced f st pts []) :
    pts.Perm f.places := by
  have := h.places
  rwa [holes, List.map_nil, show (Fragment.join []).places = [] from rfl, List.append_nil] at this

theorem Builds.simple (h : inl.Builds entry i) : i.draft.Simple := by
  obtain ⟨root, st, st', hroot, hdrains, hdraft, -⟩ := h
  rw [hdraft]
  exact hdrains.simple (instantiate_simple hroot Draft.simple_empty)

theorem Builds.realizes (hs : inl.stmtsOf entry ≠ []) (h : inl.Builds entry i) :
    ∃ place, place i.entry = startPoint entry ∧
      i.Realizes (inl.graphOf entry none []) place := by
  obtain ⟨st, pts, hl, hb, hstart, hentry, hdraft, hmethods, hunresolved, hstats⟩ := h.filled hs
  have hplaces := hb.perm_places
  have hstart : pointOf entry pts i.entry = startPoint entry := hentry ▸ pointOf_eq hstart
  refine ⟨pointOf entry pts, hstart, ?_⟩
  constructor
  case places => rwa [hdraft, ← hl.size, map_pointOf]
  case distinct => exact hplaces.nodup_iff.1 hl.distinct
  case blocks =>
    rw [hdraft]
    exact fun b hb => denotes_of_filled hl hplaces hb
  case edges =>
    rw [hdraft]
    exact fun p q => mem_edges_of_filled hl hplaces
  case inside =>
    rw [hdraft]
    exact fun b c hc => edge_inside hl hc
  case simple => exact h.simple
  case exits =>
    rw [hdraft]
    exact fun b hb => mem_exits_of_filled hl hplaces hb
  case methods =>
    intro m
    rw [hmethods, hb.methods]
    exact (or_iff_left List.not_mem_nil).symm
  case unresolved =>
    intro n
    rw [hunresolved, hb.unresolved]
    exact (or_iff_left List.not_mem_nil).symm
  case stats =>
    rw [hstats, hb.stats]
    exact (add_zero _).symm

/-- Inlining with a stack of waiting calls gives the graph that is defined by recursion over calls,
up to the numbers of blocks and pointers: also where calls go in circles, lie too deep or are not
found. -/
theorem run_realizes_graphOf (inl : Inliner) (entry : MethodId) :
    (∀ i, inl.run entry = .ok (some i) → inl.Builds entry i ∧
      ∃ place, place i.entry = startPoint entry ∧
        i.Realizes (inl.graphOf entry none []) place) ∧
    (inl.resolver.Valid inl.program → ∀ method, inl.program.method? entry = some method →
      ∃ r, inl.run entry = .ok r ∧ (r = none ↔ method.stmts = [])) := by
  refine ⟨fun i hrun => ?_, fun hv method hm => ?_⟩
  · obtain ⟨hs, hbuilds⟩ := run_builds hrun
    exact ⟨hbuilds, hbuilds.realizes hs⟩
  · by_cases hs : method.stmts = []
    · exact ⟨none, run_eq_none hm hs, by simp [hs]⟩
    · obtain ⟨i, hrun⟩ := run_ok hv hm hs
      exact ⟨some i, hrun, by simp [hs]⟩

/-- The call within the callee is followed once; the call of that instance lies too deep. -/
theorem looping_calls_realize_graphOf :
    (loopingCalls.graphOf 0 none []).stats = ⟨3, 2, 1, 0, 2⟩ ∧
      loopingCalls.passedTo 0 ⟨some 1, ⟨"M", "f", ""⟩, [.var 0], none⟩ 1 = [(⟨1, 0⟩, ⟨0, 0⟩)] ∧
      writtenBack (some ⟨0, 1⟩) [(⟨1, 0⟩, ⟨0, 0⟩)] = [(⟨0, 0⟩, ⟨1, 0⟩)] ∧
      ∃ i place, loopingCalls.run 0 = .ok (some i) ∧
        i.Realizes (loopingCalls.graphOf 0 none []) place := by
  obtain ⟨r, hrun, hnone⟩ := (run_realizes_graphOf loopingCalls 0).2 (hierarchy_valid _) _ rfl
  obtain ⟨r', hrun', hstats⟩ : ∃ r, loopingCalls.run 0 = .ok r ∧
    r.map (·.stats) = some ⟨3, 2, 1, 0, 2⟩ := exists_ok (by decide +kernel)
  cases hrun.symm.trans hrun'
  cases r with
  | none => cases hstats
  | some i =>
    obtain ⟨-, place, -, hplace⟩ := (run_realizes_graphOf loopingCalls 0).1 i hrun
    have hcounted := hplace.stats.symm.trans (Option.some.inj hstats)
    exact ⟨hcounted, by decide, by decide, i, place, hrun, hplace⟩

end Inliner

end PointsTo
