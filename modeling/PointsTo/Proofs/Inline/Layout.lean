import PointsTo.Proofs.Inline.Splice

/-! Which point every block of the graph stands for. Splicing keeps this layout: a call still
waiting leads on to what follows it, and every other block leads where the machine goes. -/
namespace PointsTo

/-- How the successors change when the call that ends block `w` gets an instance. -/
structure Draft.Rewired (d d' : Draft) (w : Nat) (blocks : List LocalBlock) : Prop where
  wellFormed : d'.WellFormed
  size : d'.size = d.size + blocks.length + 2
  call : ∀ x, x ∈ d'.successors w ↔ x = d.size + blocks.length
  others : ∀ b < d.size, b ≠ w → ∀ x, x ∈ d'.successors b ↔ x ∈ d.successors b
  callee : ∀ i lb, blocks[i]? = some lb → ∀ x, x ∈ d'.successors (d.size + i) ↔
    (∃ j ∈ lb.succs, x = d.size + j) ∨ (lb.isExit = true ∧ x = d.size + blocks.length + 1)
  enter : ∀ x, x ∈ d'.successors (d.size + blocks.length) ↔ x = d.size
  leave : ∀ x, x ∈ d'.successors (d.size + blocks.length + 1) ↔ x ∈ d.successors w

namespace Inliner

section Draft

variable {d : Draft} {m : MethodId} {depth i : Nat} {blocks : List LocalBlock} {lb : LocalBlock}

theorem mem_exitsOf : i ∈ exitsOf blocks ↔ ∃ lb, blocks[i]? = some lb ∧ lb.isExit = true := by
  simp only [exitsOf, List.mem_filterMap, Prod.exists, List.mem_zipIdx_iff_getElem?]
  grind

theorem successors_addBlocks_old (m : MethodId) (depth : Nat) (hd : d.WellFormed) {b : Nat}
    (hb : b < d.size) (x : Nat) :
    x ∈ (addBlocks m depth blocks d).successors b ↔ x ∈ d.successors b := by
  rw [(addBlocks_spec m depth blocks hd).2.2.2]
  grind

theorem successors_addBlocks_new (m : MethodId) (depth : Nat) (hd : d.WellFormed)
    (hlb : blocks[i]? = some lb) (x : Nat) :
    x ∈ (addBlocks m depth blocks d).successors (d.size + i) ↔ ∃ j ∈ lb.succs, x = d.size + j := by
  rw [(addBlocks_spec m depth blocks hd).2.2.2, Draft.successors_of_size_le hd (by omega)]
  constructor
  · rintro (h | ⟨i', lb', hlb', hi, hx⟩)
    · cases h
    · obtain rfl : i = i' := by omega
      cases hlb.symm.trans hlb'
      exact hx
  · intro hx
    exact Or.inr ⟨i, lb, hlb, rfl, hx⟩

theorem rewired (hd : d.WellFormed) {p : PendingCall} (hp : p.block < d.size)
    {calls : List PendingCall} {bind back : List Copy} :
    d.Rewired (wire (addBlocks m depth blocks d) p
      ⟨d.size, (exitsOf blocks).map (d.size + ·), calls⟩ bind back) p.block blocks := by
  obtain ⟨hwf, hsize, -, -⟩ := addBlocks_spec m depth blocks hd
  have hexit : ∀ e ∈ (exitsOf blocks).map (d.size + ·),
      d.size ≤ e ∧ e < d.size + blocks.length := by
    intro e he
    obtain ⟨i, hi, rfl⟩ := List.mem_map.1 he
    obtain ⟨lb, hlb, -⟩ := mem_exitsOf.1 hi
    have := (List.getElem?_eq_some_iff.1 hlb).1
    omega
  have hcall : p.block < (addBlocks m depth blocks d).size := by omega
  have hexits : ∀ e ∈ (exitsOf blocks).map (d.size + ·), e < (addBlocks m depth blocks d).size := by
    intro e he
    rw [hsize]
    exact (hexit e he).2
  have hfresh : p.block ∉ (exitsOf blocks).map (d.size + ·) := by
    intro he
    have := hexit _ he
    omega
  obtain ⟨hwf', hsize', hsucc⟩ :=
    wire_spec p ⟨d.size, _, calls⟩ bind back hwf hcall hexits hfresh
  rw [hsize] at hsucc hsize'
  constructor
  · exact hwf'
  · exact hsize'
  · intro x
    rw [hsucc, if_pos rfl]
  · intro b hb hne x
    rw [hsucc, if_neg hne, if_neg (by omega), if_neg (by omega),
      successors_addBlocks_old m depth hd hb]
    have : b ∉ (exitsOf blocks).map (d.size + ·) := by
      intro he
      have := hexit b he
      omega
    simp [this]
  · intro i lb hlb x
    have hi := (List.getElem?_eq_some_iff.1 hlb).1
    rw [hsucc, if_neg (by omega), if_neg (by omega), if_neg (by omega),
      successors_addBlocks_new m depth hd hlb]
    have : d.size + i ∈ (exitsOf blocks).map (d.size + ·) ↔ lb.isExit = true := by
      simp [mem_exitsOf, hlb]
    rw [this]
  · intro x
    rw [hsucc, if_neg (by omega), if_pos rfl]
  · intro x
    rw [hsucc, if_neg (by omega), if_neg (by omega), if_pos rfl,
      successors_addBlocks_old m depth hd hp]

end Draft

def instancePoints (m : MethodId) (receiver : Option Var) (n : Nat) (callers : List Activation) :
    List Point :=
  (List.range n).map fun i => .block ⟨m, receiver, i⟩ callers

def splicedPoints (pts : List Point) (callee : MethodId) (receiver : Option Var) (n : Nat)
    (site : Activation) (callers : List Activation) : List Point :=
  pts ++ (instancePoints callee receiver n (site :: callers) ++
    [.enter site callers, .leave site callers])

section Points

variable {pts : List Point} {m : MethodId} {receiver : Option Var} {n b i : Nat}
  {site : Activation} {callers : List Activation} {p : Point}

theorem mem_instancePoints :
    p ∈ instancePoints m receiver n callers ↔ ∃ i < n, p = .block ⟨m, receiver, i⟩ callers := by
  simp [instancePoints, eq_comm]

@[simp] theorem length_instancePoints :
    (instancePoints m receiver n callers).length = n := by
  simp [instancePoints]

theorem getElem?_instancePoints (hi : i < n) :
    (instancePoints m receiver n callers)[i]? = some (.block ⟨m, receiver, i⟩ callers) := by
  simp [instancePoints, hi]

theorem instancePoints_cases (h : (instancePoints m receiver n callers)[b]? = some p) :
    b < n ∧ p = .block ⟨m, receiver, b⟩ callers := by
  have hb : b < n := by simpa using (List.getElem?_eq_some_iff.1 h).1
  rw [getElem?_instancePoints hb] at h
  exact ⟨hb, (Option.some.inj h).symm⟩

theorem nodup_instancePoints : (instancePoints m receiver n callers).Nodup := by
  refine List.pairwise_map.2 (List.nodup_range.imp fun {i j} hij => ?_)
  simpa using hij

theorem splicedPoints_old (hb : b < pts.length) :
    (splicedPoints pts m receiver n site callers)[b]? = pts[b]? :=
  List.getElem?_append_left hb

theorem splicedPoints_block (hi : i < n) :
    (splicedPoints pts m receiver n site callers)[pts.length + i]? =
      some (.block ⟨m, receiver, i⟩ (site :: callers)) := by
  have hi' : i < (instancePoints m receiver n (site :: callers)).length := by simpa using hi
  rw [splicedPoints, List.getElem?_append_right (by omega), Nat.add_sub_cancel_left,
    List.getElem?_append_left hi', getElem?_instancePoints hi]

theorem splicedPoints_enter :
    (splicedPoints pts m receiver n site callers)[pts.length + n]? =
      some (.enter site callers) := by
  rw [splicedPoints, List.getElem?_append_right (by omega), Nat.add_sub_cancel_left,
    List.getElem?_append_right (by simp)]
  simp

theorem splicedPoints_leave :
    (splicedPoints pts m receiver n site callers)[pts.length + n + 1]? =
      some (.leave site callers) := by
  rw [splicedPoints, List.getElem?_append_right (by omega), Nat.add_assoc,
    Nat.add_sub_cancel_left, List.getElem?_append_right (by simp)]
  simp

theorem splicedPoints_cases (h : (splicedPoints pts m receiver n site callers)[b]? = some p) :
    (b < pts.length ∧ pts[b]? = some p) ∨
      (∃ i < n, b = pts.length + i ∧ p = .block ⟨m, receiver, i⟩ (site :: callers)) ∨
      (b = pts.length + n ∧ p = .enter site callers) ∨
      (b = pts.length + n + 1 ∧ p = .leave site callers) := by
  have hlt := (List.getElem?_eq_some_iff.1 h).1
  have hlen : b < pts.length + (n + 2) := by simpa [splicedPoints] using hlt
  rcases Nat.lt_or_ge b pts.length with hb | hb
  · exact Or.inl ⟨hb, by rw [← h, splicedPoints_old hb]⟩
  · obtain ⟨i, rfl⟩ := Nat.exists_eq_add_of_le hb
    rcases Nat.lt_trichotomy i n with hi | rfl | hi
    · exact Or.inr (Or.inl ⟨i, hi, rfl, Option.some.inj (h.symm.trans (splicedPoints_block hi))⟩)
    · exact Or.inr (Or.inr (Or.inl
        ⟨rfl, Option.some.inj (h.symm.trans splicedPoints_enter)⟩))
    · obtain rfl : i = n + 1 := by omega
      exact Or.inr (Or.inr (Or.inr
        ⟨rfl, Option.some.inj (h.symm.trans splicedPoints_leave)⟩))

theorem mem_splicedPoints : p ∈ splicedPoints pts m receiver n site callers ↔
    p ∈ pts ∨ p ∈ instancePoints m receiver n (site :: callers) ∨
      p = .enter site callers ∨ p = .leave site callers := by
  simp [splicedPoints]

end Points

section Pending

variable {inl : Inliner} {t : PointerTable} {m : MethodId} {receiver : Option Var}
  {callers : List Activation} {base i : Nat} {w : PendingCall}

theorem pendingFor_eq_some {depth block : Nat} {c : Call} :
    inl.pendingFor m depth block c = some w ↔
      ∃ callee, inl.callee? c = some callee ∧ depth < inl.maxDepth ∧
        w = ⟨block, m, c, callee, depth + 1⟩ := by
  simp only [pendingFor, Option.bind_eq_some_iff]
  refine exists_congr fun callee => and_congr_right fun _ => ?_
  by_cases hd : depth < inl.maxDepth
  · simp [hd, eq_comm]
  · simp [hd]

theorem mem_pendingOf :
    w ∈ inl.pendingOf m callers.length base (inl.blocksOf t m receiver).zipIdx ↔
      ∃ i c callee, inl.entered t ⟨m, receiver, i⟩ callers = some (c, callee) ∧
        w = ⟨base + i, m, c, callee, callers.length + 1⟩ := by
  simp only [pendingOf, List.mem_filterMap, Prod.exists, List.mem_zipIdx_iff_getElem?,
    Option.bind_eq_some_iff, pendingFor_eq_some, entered_eq_some, callAt, blockAt,
    Option.map_eq_some_iff]
  grind

theorem depth_of_mem_pendingOf {depth : Nat} {bis : List (LocalBlock × Nat)}
    (hw : w ∈ inl.pendingOf m depth base bis) : w.depth = depth + 1 ∧ w.depth ≤ inl.maxDepth := by
  obtain ⟨bi, -, hw⟩ := List.mem_filterMap.1 hw
  obtain ⟨ic, -, hw⟩ := Option.bind_eq_some_iff.1 hw
  obtain ⟨callee, -, hd, rfl⟩ := pendingFor_eq_some.1 hw
  exact ⟨rfl, hd⟩

theorem le_block_of_mem_pendingOf {depth : Nat} {blocks : List LocalBlock}
    (hw : w ∈ inl.pendingOf m depth base blocks.zipIdx) : base ≤ w.block := by
  obtain ⟨bi, -, hw⟩ := List.mem_filterMap.1 hw
  obtain ⟨ic, -, hw⟩ := Option.bind_eq_some_iff.1 hw
  obtain ⟨_, _, _, rfl⟩ := pendingFor_eq_some.1 hw
  exact Nat.le_add_right base bi.2

theorem pendingOf_nodup (inl : Inliner) (m : MethodId) (depth base : Nat)
    (blocks : List LocalBlock) :
    ((inl.pendingOf m depth base blocks.zipIdx).map (·.block)).Nodup := by
  have hpos : (blocks.zipIdx.map Prod.snd).Nodup := by
    rw [List.zipIdx_map_snd]
    exact List.nodup_range'
  rw [List.Nodup, List.pairwise_map] at hpos
  rw [List.Nodup, List.pairwise_map, pendingOf, List.pairwise_filterMap]
  refine hpos.imp fun {x y} hne w hw v hv heq => hne ?_
  obtain ⟨ic, -, hw⟩ := Option.bind_eq_some_iff.1 hw
  obtain ⟨jc, -, hv⟩ := Option.bind_eq_some_iff.1 hv
  obtain ⟨_, _, _, rfl⟩ := pendingFor_eq_some.1 hw
  obtain ⟨_, _, _, rfl⟩ := pendingFor_eq_some.1 hv
  exact Nat.add_left_cancel heq

end Pending

def Leads (d : Draft) (pts : List Point) (b : Nat) (qs : List Point) : Prop :=
  ∀ q, q ∈ qs ↔ ∃ c ∈ d.successors b, pts[c]? = some q

/-- A call whose instance is still missing, with its site. No point lies in what it runs. -/
structure Waits (inl : Inliner) (t : PointerTable) (d : Draft) (pts : List Point)
    (w : PendingCall) (site : Activation) (callers : List Activation) : Prop where
  at_block : pts[w.block]? = some (.block site callers)
  leads : Leads d pts w.block (inl.afterwards t site callers)
  entered : inl.entered t site callers = some (w.call, w.callee)
  caller : w.caller = site.method
  depth : w.depth = callers.length + 1
  fresh : ∀ p ∈ pts, ¬ (site :: callers) <:+ p.sites

/-- Block `b` stands for the point `pts[b]`. -/
structure Layout (inl : Inliner) (t : PointerTable) (st : Inlining) (pts : List Point)
    (pending : List PendingCall) : Prop where
  wellFormed : st.draft.WellFormed
  size : pts.length = st.draft.size
  distinct : pts.Nodup
  inside : ∀ b, ∀ c ∈ st.draft.successors b, c < st.draft.size
  content : ∀ b p, pts[b]? = some p → st.draft.blocks[b]? = inl.blockFor t b p
  numbered : ∀ p ∈ pts, inl.Numbered t p
  whole : ∀ a cs, .block a cs ∈ pts → ∀ i, .block { a with block := i } cs ∈ pts ↔
    i < (inl.blocksOf t a.method a.receiver).length
  methods : ∀ a cs, .block a cs ∈ pts → a.method ∈ st.methods
  leads : ∀ b p, pts[b]? = some p → b ∉ pending.map (·.block) →
    Leads st.draft pts b (inl.next t p)
  returns : ∀ site callers, .enter site callers ∈ pts → .leave site callers ∈ pts
  waits : ∀ w ∈ pending, ∃ site callers, Waits inl t st.draft pts w site callers
  pending_distinct : (pending.map (·.block)).Nodup
  exhaustive : st.stats.Exhaustive → ∀ a cs, .block a cs ∈ pts → inl.callAt t a ≠ none →
    inl.entered t a cs ≠ none

section Leads

variable {d d' : Draft} {pts pts' : List Point} {b b' c : Nat} {q : Point} {qs : List Point}

theorem Leads.transfer (h : Leads d pts b qs)
    (hsucc : ∀ x, x ∈ d'.successors b' ↔ x ∈ d.successors b)
    (hpts : ∀ c ∈ d.successors b, pts'[c]? = pts[c]?) : Leads d' pts' b' qs := by
  intro q
  rw [h q]
  constructor
  · rintro ⟨c, hc, hq⟩
    exact ⟨c, (hsucc c).2 hc, (hpts c hc).trans hq⟩
  · rintro ⟨c, hc, hq⟩
    have hc := (hsucc c).1 hc
    exact ⟨c, hc, (hpts c hc).symm.trans hq⟩

theorem leads_singleton (hsucc : ∀ x, x ∈ d.successors b ↔ x = c) (hc : pts[c]? = some q) :
    Leads d pts b [q] := by
  intro q'
  rw [List.mem_singleton]
  constructor
  · rintro rfl
    exact ⟨c, (hsucc c).2 rfl, hc⟩
  · rintro ⟨c', hc', hq'⟩
    obtain rfl := (hsucc c').1 hc'
    exact Option.some.inj (hq'.symm.trans hc)

end Leads

theorem Layout.perm {inl : Inliner} {t : PointerTable} {st : Inlining} {pts : List Point}
    {ps qs : List PendingCall} (h : Layout inl t st pts ps) (hp : ps.Perm qs) :
    Layout inl t st pts qs where
  wellFormed := h.wellFormed
  size := h.size
  distinct := h.distinct
  inside := h.inside
  content := h.content
  numbered := h.numbered
  whole := h.whole
  methods := h.methods
  leads b p hb hnot := h.leads b p hb fun hmem => hnot ((hp.map _).mem_iff.1 hmem)
  returns := h.returns
  waits w hw := h.waits w (hp.mem_iff.2 hw)
  pending_distinct := (hp.map _).nodup_iff.1 h.pending_distinct
  exhaustive := h.exhaustive

section Instance

variable {inl : Inliner} {t : PointerTable} {d : Draft} {pts : List Point} {m : MethodId}
  {receiver : Option Var} {callers : List Activation} {base i : Nat} {lb : LocalBlock}

theorem succsAt_eq (hlb : (inl.blocksOf t m receiver)[i]? = some lb) :
    inl.succsAt t ⟨m, receiver, i⟩ = lb.succs.toList := by
  rw [succsAt, blockAt, hlb]
  rfl

theorem leads_instance (hlb : (inl.blocksOf t m receiver)[i]? = some lb) (out : Option Nat)
    (hpts : ∀ j < (inl.blocksOf t m receiver).length,
      pts[base + j]? = some (.block ⟨m, receiver, j⟩ callers))
    (hsucc : ∀ x, x ∈ d.successors (base + i) ↔
      (∃ j ∈ lb.succs, x = base + j) ∨ (lb.isExit = true ∧ out = some x))
    (hout : ∀ q, (∃ x, out = some x ∧ pts[x]? = some q) ↔
      ∃ s cs, callers = s :: cs ∧ q = .leave s cs) :
    Leads d pts (base + i) (inl.afterwards t ⟨m, receiver, i⟩ callers) := by
  intro q
  have hinside : ∀ j ∈ lb.succs, j < (inl.blocksOf t m receiver).length := by
    intro j hj
    exact succs_inside (List.mem_of_getElem? hlb) hj
  have hexit : inl.succsAt t ⟨m, receiver, i⟩ = [] ↔ lb.isExit = true := by
    rw [succsAt_eq hlb, LocalBlock.isExit, OrderedSet.isEmpty, List.isEmpty_iff]
  rw [mem_afterwards, hexit, succsAt_eq hlb]
  constructor
  · rintro (⟨j, hj, rfl⟩ | ⟨he, hq⟩)
    · exact ⟨base + j, (hsucc _).2 (Or.inl ⟨j, hj, rfl⟩), hpts j (hinside j hj)⟩
    · obtain ⟨x, hx, hpx⟩ := (hout q).2 hq
      exact ⟨x, (hsucc x).2 (Or.inr ⟨he, hx⟩), hpx⟩
  · rintro ⟨x, hx, hq⟩
    rcases (hsucc x).1 hx with ⟨j, hj, rfl⟩ | ⟨he, hx⟩
    · have hq' := hpts j (hinside j hj)
      exact Or.inl ⟨j, hj, Option.some.inj (hq.symm.trans hq')⟩
    · exact Or.inr ⟨he, (hout q).1 ⟨x, hx, hq⟩⟩

structure Placed (inl : Inliner) (t : PointerTable) (d : Draft) (pts : List Point) (m : MethodId)
    (receiver : Option Var) (callers : List Activation) (base : Nat) : Prop where
  points : ∀ i < (inl.blocksOf t m receiver).length,
    pts[base + i]? = some (.block ⟨m, receiver, i⟩ callers)
  leads : ∀ i < (inl.blocksOf t m receiver).length,
    Leads d pts (base + i) (inl.afterwards t ⟨m, receiver, i⟩ callers)
  fresh : ∀ p ∈ pts, ∀ i, ¬ (⟨m, receiver, i⟩ :: callers) <:+ p.sites

theorem lt_length_of_entered {c : Call} {callee : MethodId}
    (h : inl.entered t ⟨m, receiver, i⟩ callers = some (c, callee)) :
    i < (inl.blocksOf t m receiver).length := by
  obtain ⟨lb, hlb, -⟩ := Option.bind_eq_some_iff.1 (entered_eq_some.1 h).1
  exact (List.getElem?_eq_some_iff.1 hlb).1

theorem Placed.waits (h : Placed inl t d pts m receiver callers base) {w : PendingCall}
    (hw : w ∈ inl.pendingOf m callers.length base (inl.blocksOf t m receiver).zipIdx) :
    ∃ site cs, Waits inl t d pts w site cs := by
  obtain ⟨i, c, callee, he, rfl⟩ := mem_pendingOf.1 hw
  have hi := lt_length_of_entered he
  exact ⟨⟨m, receiver, i⟩, callers, h.points i hi, h.leads i hi, he, rfl, rfl,
    fun p hp => h.fresh p hp i⟩

/-- Where no splice is asked for, the machine does not follow a call. -/
theorem Placed.leads_next (h : Placed inl t d pts m receiver callers base)
    (hi : i < (inl.blocksOf t m receiver).length)
    (hnot : base + i ∉ (inl.pendingOf m callers.length base
      (inl.blocksOf t m receiver).zipIdx).map (·.block)) :
    Leads d pts (base + i) (inl.next t (.block ⟨m, receiver, i⟩ callers)) := by
  cases he : inl.entered t ⟨m, receiver, i⟩ callers with
  | none =>
    rw [next, he]
    exact h.leads i hi
  | some found =>
    obtain ⟨c, callee⟩ := found
    exact absurd (List.mem_map.2 ⟨_, mem_pendingOf.2 ⟨i, c, callee, he, rfl⟩, rfl⟩) hnot

/-- A new instance whose calls were all classified for splicing has no other calls. -/
theorem entered_of_classified {depth : Nat} (hdepth : depth = callers.length)
    (h : ∀ bi ∈ (inl.blocksOf t m receiver).zipIdx, ∀ ic, bi.1.call = some ic →
      inl.pendingFor m depth (base + bi.2) ic.2 ≠ none)
    (hc : inl.callAt t ⟨m, receiver, i⟩ ≠ none) :
    inl.entered t ⟨m, receiver, i⟩ callers ≠ none := by
  obtain ⟨c, hc⟩ := Option.ne_none_iff_exists'.1 hc
  obtain ⟨lb, hlb, hcall⟩ := Option.bind_eq_some_iff.1 hc
  obtain ⟨ic, hic, rfl⟩ := Option.map_eq_some_iff.1 hcall
  obtain ⟨w, hw⟩ := Option.ne_none_iff_exists'.1
    (h (lb, i) (List.mem_zipIdx_iff_getElem?.2 hlb) ic hic)
  obtain ⟨callee, hcallee, hd, -⟩ := pendingFor_eq_some.1 hw
  have hentered := entered_eq_some.2 ⟨hc, hcallee, hdepth ▸ hd⟩
  rw [hentered]
  exact Option.some_ne_none _

end Instance

theorem block_mem_instancePoints {m : MethodId} {receiver : Option Var} {n : Nat}
    {callers cs : List Activation} {a : Activation} :
    .block a cs ∈ instancePoints m receiver n callers ↔
      cs = callers ∧ a.method = m ∧ a.receiver = receiver ∧ a.block < n := by
  rw [mem_instancePoints]
  constructor
  · rintro ⟨i, hi, ha⟩
    cases ha
    exact ⟨rfl, rfl, rfl, hi⟩
  · rintro ⟨rfl, rfl, rfl, hi⟩
    exact ⟨a.block, hi, rfl⟩

section Start

variable {inl : Inliner} {t : PointerTable} {st : Inlining} {root : Instance} {entry : MethodId}

theorem start_placed (inl : Inliner) (t : PointerTable) (entry : MethodId) :
    Placed inl t (addBlocks entry 0 (inl.blocksOf t entry none) (Inlining.start ∅).draft)
      (instancePoints entry none (inl.blocksOf t entry none).length []) entry none [] 0 := by
  constructor
  · intro i hi
    rw [Nat.zero_add, getElem?_instancePoints hi]
  · intro i hi
    have hlb := List.getElem?_eq_getElem hi
    refine leads_instance hlb none (fun j hj => ?_) (fun x => ?_) (by simp)
    · rw [Nat.zero_add, getElem?_instancePoints hj]
    · have hempty : (Inlining.start ∅).draft.WellFormed := rfl
      have hnew := successors_addBlocks_new entry 0 hempty hlb x
      rw [show (Inlining.start ∅).draft.size = 0 from rfl] at hnew
      simpa using hnew
  · intro p hp i
    obtain ⟨j, -, rfl⟩ := mem_instancePoints.1 hp
    simp [Point.sites]

theorem start_layout (h : inl.instantiate entry none 0 (.start ∅) = .ok (root, st))
    (ht : st.table ≤ t) :
    root.entry = 0 ∧
      Layout inl t st (instancePoints entry none (inl.blocksOf t entry none).length [])
        root.calls := by
  obtain ⟨-, -, -, hmethods, hspec⟩ := instantiate_spec h
  obtain ⟨hnumbered, hdraft, hroot, hex⟩ := hspec t ht
  have hempty : (Inlining.start ∅).draft.WellFormed := rfl
  have hzero : (Inlining.start ∅).draft.size = 0 := rfl
  have hplaced := start_placed inl t entry
  obtain ⟨hwf, hsize, hblocks, hsucc⟩ := addBlocks_spec entry 0 (inl.blocksOf t entry none) hempty
  rw [← hdraft] at hplaced hwf hsize hblocks hsucc
  rw [hzero, Nat.zero_add] at hsize
  rw [hroot]
  refine ⟨rfl, ?_⟩
  constructor
  · exact hwf
  · rw [length_instancePoints, hsize]
  · exact nodup_instancePoints
  · intro b c hc
    rcases (hsucc b c).1 hc with hc | ⟨i, lb, hlb, -, j, hj, rfl⟩
    · rw [Draft.successors_of_size_le hempty (Nat.zero_le b)] at hc
      cases hc
    · rw [hzero, Nat.zero_add, hsize]
      exact succs_inside (List.mem_of_getElem? hlb) hj
  · intro b p hb
    obtain ⟨hi, rfl⟩ := instancePoints_cases hb
    have hlb := List.getElem?_eq_getElem hi
    rw [hblocks, hzero, if_neg (Nat.not_lt_zero b), Nat.sub_zero, blockFor, blockAt, hlb]
    rfl
  · intro p hp
    obtain ⟨i, -, rfl⟩ := mem_instancePoints.1 hp
    exact hnumbered
  · intro a cs ha i
    obtain ⟨rfl, rfl, hr, -⟩ := block_mem_instancePoints.1 ha
    simp [block_mem_instancePoints, hr]
  · intro a cs ha
    rw [(block_mem_instancePoints.1 ha).2.1, hmethods]
    simp
  · intro b p hb hnot
    obtain ⟨hi, rfl⟩ := instancePoints_cases hb
    simpa using hplaced.leads_next hi (by simpa [hzero] using hnot)
  · intro site callers hsite
    obtain ⟨_, -, hpoint⟩ := mem_instancePoints.1 hsite
    cases hpoint
  · intro w hw
    exact hplaced.waits hw
  · exact pendingOf_nodup inl entry 0 _ _
  · intro hst a cs ha hc
    obtain ⟨i, -, ha⟩ := mem_instancePoints.1 ha
    cases ha
    exact entered_of_classified rfl (hex hst) hc

end Start

section Splice

variable {inl : Inliner} {t : PointerTable} {st : Inlining} {d' : Draft} {pts : List Point}
  {pending : List PendingCall} {w v : PendingCall} {site s : Activation}
  {callers cs : List Activation} {receiver : Option Var}

def pointsAfter (inl : Inliner) (t : PointerTable) (pts : List Point) (w : PendingCall)
    (site : Activation) (callers : List Activation) : List Point :=
  splicedPoints pts w.callee (receiverOf w.caller w.call)
    (inl.blocksOf t w.callee (receiverOf w.caller w.call)).length site callers

theorem block_mem_pointsAfter {a : Activation} :
    .block a cs ∈ pointsAfter inl t pts w site callers ↔ .block a cs ∈ pts ∨
      (cs = site :: callers ∧ a.method = w.callee ∧
      a.receiver = receiverOf w.caller w.call ∧
      a.block < (inl.blocksOf t a.method a.receiver).length) := by
  rw [pointsAfter, mem_splicedPoints, block_mem_instancePoints]
  grind

theorem sites_of_mem_pointsAfter {p : Point} (hp : p ∈ pointsAfter inl t pts w site callers) :
    p ∈ pts ∨ p.sites = site :: callers := by
  rcases mem_splicedPoints.1 hp with hp | hp | rfl | rfl
  · exact Or.inl hp
  · obtain ⟨i, -, rfl⟩ := mem_instancePoints.1 hp
    exact Or.inr rfl
  · exact Or.inr rfl
  · exact Or.inr rfl

theorem pointsAfter_distinct (h : Layout inl t st pts pending)
    (hw : Waits inl t st.draft pts w site callers) :
    (pointsAfter inl t pts w site callers).Nodup := by
  have hnew : ∀ p ∈ pts, p.sites ≠ site :: callers := by
    intro p hp he
    exact hw.fresh p hp (he ▸ List.suffix_refl _)
  refine List.nodup_append.2
    ⟨h.distinct, List.nodup_append.2 ⟨nodup_instancePoints, by simp, ?_⟩, ?_⟩
  · intro p hp q hq
    obtain ⟨i, -, rfl⟩ := mem_instancePoints.1 hp
    rcases List.mem_pair.1 hq with rfl | rfl <;> simp
  · rintro p hp q hq rfl
    refine hnew p hp ?_
    rcases List.mem_append.1 hq with hq | hq
    · obtain ⟨i, -, rfl⟩ := mem_instancePoints.1 hq
      rfl
    · rcases List.mem_pair.1 hq with rfl | rfl <;> rfl

variable (h : Layout inl t st pts pending) (hw : Waits inl t st.draft pts w site callers)
  (hr : st.draft.Rewired d' w.block (inl.blocksOf t w.callee (receiverOf w.caller w.call)))

include h hr in
theorem spliced_placed (hw : Waits inl t st.draft pts w site callers) :
    Placed inl t d' (pointsAfter inl t pts w site callers) w.callee (receiverOf w.caller w.call)
      (site :: callers) st.draft.size := by
  rw [← h.size]
  constructor
  · intro i hi
    exact splicedPoints_block hi
  · intro i hi
    have hlb := List.getElem?_eq_getElem hi
    refine leads_instance hlb
      (some (pts.length + (inl.blocksOf t w.callee (receiverOf w.caller w.call)).length + 1))
      (fun j hj => splicedPoints_block hj) (fun x => ?_) (fun q => ?_)
    · rw [h.size, hr.callee i _ hlb, Option.some.injEq, eq_comm (b := x)]
    · simp [pointsAfter, splicedPoints_leave, eq_comm]
  · intro p hp i hsuffix
    rcases sites_of_mem_pointsAfter hp with hp | hp
    · exact hw.fresh p hp (List.IsSuffix.trans (List.suffix_cons _ _) hsuffix)
    · rw [hp] at hsuffix
      have := hsuffix.length_le
      simp only [List.length_cons] at this
      omega

include h hr in
theorem spliced_leads_old {b : Nat} {qs : List Point} (hb : b < st.draft.size) (hne : b ≠ w.block)
    (hl : Leads st.draft pts b qs) : Leads d' (pointsAfter inl t pts w site callers) b qs :=
  hl.transfer (hr.others b hb hne) fun c hc => splicedPoints_old (h.size ▸ h.inside b c hc)

include h hr in
theorem spliced_waits (hw : Waits inl t st.draft pts w site callers)
    (hv : Waits inl t st.draft pts v s cs) (hne : v.block ≠ w.block) :
    Waits inl t d' (pointsAfter inl t pts w site callers) v s cs := by
  have hlt : v.block < pts.length := (List.getElem?_eq_some_iff.1 hv.at_block).1
  constructor
  · exact (splicedPoints_old hlt).trans hv.at_block
  · exact spliced_leads_old h hr (h.size ▸ hlt) hne hv.leads
  · exact hv.entered
  · exact hv.caller
  · exact hv.depth
  · intro p hp hsuffix
    rcases sites_of_mem_pointsAfter hp with hp | hp
    · exact hv.fresh p hp hsuffix
    · rw [hp] at hsuffix
      rcases List.suffix_cons_iff.1 hsuffix with heq | hsuffix
      · cases heq
        exact hne ((List.getElem?_inj hlt h.distinct).1 (hv.at_block.trans hw.at_block.symm))
      · exact hv.fresh _ (List.mem_of_getElem? hw.at_block) hsuffix

theorem stmts_of_callee {c : Call} {callee : MethodId} (hc : inl.callee? c = some callee) :
    inl.stmtsOf callee ≠ [] := by
  obtain ⟨-, method, hm, hbody⟩ := callee?_eq_some.1 hc
  rw [stmtsOf, hm, Option.elim_some]
  intro hnil
  simp [Method.hasBody, hnil] at hbody

theorem blocksOf_pos {c : Call} {callee : MethodId} (hc : inl.callee? c = some callee)
    (receiver : Option Var) : 0 < (inl.blocksOf t callee receiver).length :=
  methodBlocks_pos (stmts_of_callee hc)

include h hr in
theorem spliced_inside (b c : Nat) (hc : c ∈ d'.successors b) : c < d'.size := by
  have hsize := hr.size
  set n := (inl.blocksOf t w.callee (receiverOf w.caller w.call)).length
  rcases Nat.lt_or_ge b st.draft.size with hb | hb
  · by_cases hw : b = w.block
    · have := (hr.call c).1 (hw ▸ hc)
      omega
    · have := h.inside b c ((hr.others b hb hw c).1 hc)
      omega
  · obtain ⟨i, rfl⟩ := Nat.exists_eq_add_of_le hb
    rcases Nat.lt_or_ge i n with hi | hi
    · have hlb := List.getElem?_eq_getElem hi
      rcases (hr.callee i _ hlb c).1 hc with ⟨j, hj, rfl⟩ | ⟨-, rfl⟩
      · have : j < n := succs_inside (List.mem_of_getElem? hlb) hj
        omega
      · omega
    · by_cases hin : i = n
      · rw [hin] at hc
        have := (hr.enter c).1 hc
        omega
      · by_cases hin' : i = n + 1
        · rw [hin'] at hc
          have := h.inside _ c ((hr.leave c).1 hc)
          omega
        · rw [Draft.successors_of_size_le hr.wellFormed (by omega)] at hc
          cases hc

include h in
theorem spliced_whole (hw : Waits inl t st.draft pts w site callers) {a : Activation}
    (ha : .block a cs ∈ pointsAfter inl t pts w site callers) (i : Nat) :
    .block { a with block := i } cs ∈ pointsAfter inl t pts w site callers ↔
      i < (inl.blocksOf t a.method a.receiver).length := by
  rw [block_mem_pointsAfter] at ha ⊢
  rcases ha with ha | ⟨rfl, hm, hr, hi⟩
  · have hcs : cs ≠ site :: callers := by
      rintro rfl
      exact hw.fresh _ ha (List.suffix_refl _)
    simp [hcs, h.whole a cs ha]
  · have hnot : ∀ a', .block a' (site :: callers) ∉ pts := by
      intro a' ha'
      exact hw.fresh _ ha' (List.suffix_refl _)
    simp [hnot, hm, hr]

include h in
theorem spliced_returns (hs : .enter s cs ∈ pointsAfter inl t pts w site callers) :
    .leave s cs ∈ pointsAfter inl t pts w site callers := by
  rw [pointsAfter, mem_splicedPoints] at hs ⊢
  rcases hs with hs | hs | hs | hs
  · exact Or.inl (h.returns s cs hs)
  · obtain ⟨_, -, hpoint⟩ := mem_instancePoints.1 hs
    cases hpoint
  · cases hs
    exact Or.inr (Or.inr (Or.inr rfl))
  · cases hs

theorem next_enter (he : inl.entered t site callers = some (w.call, w.callee))
    (hm : w.caller = site.method) : inl.next t (.enter site callers) =
      [.block ⟨w.callee, receiverOf w.caller w.call, 0⟩ (site :: callers)] := by
  rw [next, he, hm]
  rfl

include h hr in
theorem spliced_leads (hw : Waits inl t st.draft pts w site callers) {calls : List PendingCall}
    (hcalls : calls = inl.pendingOf w.callee (site :: callers).length st.draft.size
      (inl.blocksOf t w.callee (receiverOf w.caller w.call)).zipIdx)
    {b : Nat} {p : Point} (hb : (pointsAfter inl t pts w site callers)[b]? = some p)
    (hcall : b ∉ calls.map (·.block)) (hrest : b ≠ w.block → b ∉ pending.map (·.block)) :
    Leads d' (pointsAfter inl t pts w site callers) b (inl.next t p) := by
  rcases splicedPoints_cases hb with ⟨hlt, hp⟩ | ⟨i, hi, rfl, rfl⟩ | ⟨rfl, rfl⟩ | ⟨rfl, rfl⟩
  · by_cases hne : b = w.block
    · subst hne
      cases hp.symm.trans hw.at_block
      rw [next, hw.entered]
      exact leads_singleton hr.call (h.size ▸ splicedPoints_enter)
    · exact spliced_leads_old h hr (h.size ▸ hlt) hne (h.leads b p hp (hrest hne))
  · rw [h.size] at hcall ⊢
    exact (spliced_placed h hr hw).leads_next hi (hcalls ▸ hcall)
  · rw [next_enter hw.entered hw.caller, h.size]
    refine leads_singleton hr.enter ?_
    have hpos : 0 < (inl.blocksOf t w.callee (receiverOf w.caller w.call)).length :=
      blocksOf_pos (entered_eq_some.1 hw.entered).2.1 _
    exact h.size ▸ splicedPoints_block hpos
  · rw [next, h.size]
    exact hw.leads.transfer hr.leave fun c hc => splicedPoints_old (h.size ▸ h.inside _ c hc)

include h hw in
theorem spliced_content {inst : Instance} {b : Nat} {p : Point}
    (hb : (pointsAfter inl t pts w site callers)[b]? = some p) :
    (wire (addBlocks w.callee w.depth
        (inl.blocksOf t w.callee (receiverOf w.caller w.call)) st.draft)
      w inst (callCopies t (inl.passedTo w.caller w.call w.callee))
      (callCopies t (writtenBack (receiverOf w.caller w.call)
        (inl.passedTo w.caller w.call w.callee)))).blocks[b]? = inl.blockFor t b p := by
  obtain ⟨-, hsize, hblocks, -⟩ := addBlocks_spec w.callee w.depth
    (inl.blocksOf t w.callee (receiverOf w.caller w.call)) h.wellFormed
  rw [getElem?_wire, hsize, hblocks, ← h.size]
  rcases splicedPoints_cases hb with ⟨hlt, hp⟩ | ⟨i, hi, rfl, rfl⟩ | ⟨rfl, rfl⟩ | ⟨rfl, rfl⟩
  · rw [if_neg (by omega), if_neg (by omega), if_pos hlt]
    exact h.content b p hp
  · rw [if_neg (by omega), if_neg (by omega), if_neg (by omega), Nat.add_sub_cancel_left, hw.depth]
    rfl
  · rw [if_pos rfl, blockFor, hw.entered, hw.caller, hw.depth]
    rfl
  · rw [if_neg (by omega), if_pos rfl, blockFor, hw.entered, hw.caller, hw.depth]
    rfl

include h in
theorem spliced_numbered (hw : Waits inl t st.draft pts w site callers)
    (hblocks : (methodBlocks inl.hooks w.callee (inl.stmtsOf w.callee)
      (receiverOf w.caller w.call) t).2 = t)
    (hreceiver : ∀ r ∈ receiverOf w.caller w.call, .var r ∈ t.pointers)
    (hpairs : ∀ v ∈ inl.passedTo w.caller w.call w.callee,
      .var v.1 ∈ t.pointers ∧ .var v.2 ∈ t.pointers)
    {p : Point} (hp : p ∈ pointsAfter inl t pts w site callers) : inl.Numbered t p := by
  have hcall : ∀ c callee, inl.entered t site callers = some (c, callee) →
      (∀ r ∈ receiverOf site.method c, .var r ∈ t.pointers) ∧
        ∀ v ∈ inl.passedTo site.method c callee,
          .var v.1 ∈ t.pointers ∧ .var v.2 ∈ t.pointers := by
    intro c callee he
    cases hw.entered.symm.trans he
    exact hw.caller ▸ ⟨hreceiver, hpairs⟩
  rcases mem_splicedPoints.1 hp with hp | hp | rfl | rfl
  · exact h.numbered p hp
  · obtain ⟨i, -, rfl⟩ := mem_instancePoints.1 hp
    exact hblocks
  · exact hcall
  · exact hcall

theorem spliced_pending_distinct {rest : List PendingCall} (h : Layout inl t st pts (w :: rest))
    (m : MethodId) (depth : Nat) (blocks : List LocalBlock) :
    ((inl.pendingOf m depth st.draft.size blocks.zipIdx ++ rest).map (·.block)).Nodup := by
  rw [List.map_append]
  refine List.nodup_append.2
    ⟨pendingOf_nodup inl _ _ _ _, (List.nodup_cons.1 h.pending_distinct).2, ?_⟩
  rintro x hx y hy rfl
  obtain ⟨v, hv, rfl⟩ := List.mem_map.1 hx
  obtain ⟨u, hu, heq⟩ := List.mem_map.1 hy
  have hnew : st.draft.size ≤ v.block := le_block_of_mem_pendingOf hv
  obtain ⟨s, cs, hus⟩ := h.waits u (List.mem_cons_of_mem w hu)
  have hult : u.block < st.draft.size :=
    h.size ▸ (List.getElem?_eq_some_iff.1 hus.at_block).1
  omega

/-- Splicing a waiting call keeps the layout; the calls of the new instance wait next. -/
theorem spliced_layout {rest : List PendingCall} {inst : Instance} {st' : Inlining}
    (h : Layout inl t st pts (w :: rest)) (hw : Waits inl t st.draft pts w site callers)
    (hs : inl.splice w st = .ok (inst, st')) (ht : st'.table ≤ t) :
    Layout inl t st' (pointsAfter inl t pts w site callers) (inst.calls ++ rest) := by
  obtain ⟨-, hexh, hmethods, hspec⟩ := splice_spec hs
  obtain ⟨hblocks, hcall, hdraft, rfl, hex⟩ := hspec t ht
  have hlt : w.block < st.draft.size := h.size ▸ (List.getElem?_eq_some_iff.1 hw.at_block).1
  have hr : st.draft.Rewired st'.draft w.block
      (inl.blocksOf t w.callee (receiverOf w.caller w.call)) := hdraft ▸ rewired h.wellFormed hlt
  have hplaced := spliced_placed h hr hw
  have hnodup := List.nodup_cons.1 h.pending_distinct
  have hdepth : w.depth = (site :: callers).length := hw.depth
  rw [hdepth] at hex ⊢
  constructor
  · exact hr.wellFormed
  · rw [hr.size, ← h.size]
    simp [pointsAfter, splicedPoints, Nat.add_assoc]
  · exact pointsAfter_distinct h hw
  · exact spliced_inside h hr
  · intro b p hb
    rw [hdraft]
    exact spliced_content h hw hb
  · intro p hp
    exact spliced_numbered h hw hblocks hcall.1 hcall.2 hp
  · intro a cs ha i
    exact spliced_whole h hw ha i
  · intro a cs ha
    rw [hmethods, OrderedSet.mem_insert]
    rcases block_mem_pointsAfter.1 ha with ha | ⟨-, hm, -⟩
    · exact Or.inr (h.methods a cs ha)
    · exact Or.inl hm
  · intro b p hb hnot
    rw [List.map_append, List.mem_append, not_or] at hnot
    refine spliced_leads h hr hw rfl hb hnot.1 fun hne hmem => ?_
    exact (List.mem_cons.1 hmem).elim hne hnot.2
  · intro s cs hs
    exact spliced_returns h hs
  · intro v hv
    rcases List.mem_append.1 hv with hv | hv
    · exact hplaced.waits hv
    · obtain ⟨s, cs, hvs⟩ := h.waits v (List.mem_cons_of_mem w hv)
      have hne : v.block ≠ w.block := by
        intro he
        exact hnodup.1 (List.mem_map.2 ⟨v, hv, he⟩)
      exact ⟨s, cs, spliced_waits h hr hw hvs hne⟩
  · exact spliced_pending_distinct h _ _ _
  · intro hst a cs ha hc
    rcases block_mem_pointsAfter.1 ha with ha | ⟨rfl, hm, hrec, -⟩
    · exact h.exhaustive (hexh hst) a cs ha hc
    · obtain ⟨m, receiver, i⟩ := a
      cases hm
      cases hrec
      exact entered_of_classified rfl (hex hst) hc

theorem spliced_depth {inst : Instance} {st' : Inlining} (hs : inl.splice w st = .ok (inst, st')) :
    ∀ v ∈ inst.calls, v.depth = w.depth + 1 ∧ v.depth ≤ inl.maxDepth := by
  obtain ⟨-, -, -, hspec⟩ := splice_spec hs
  obtain ⟨-, -, -, rfl, -⟩ := hspec st'.table (PointerTable.le_refl _)
  intro v hv
  exact depth_of_mem_pendingOf hv

theorem splice_layout {rest : List PendingCall} {inst : Instance} {st' : Inlining}
    (h : Layout inl t st pts (w :: rest)) (hs : inl.splice w st = .ok (inst, st'))
    (ht : st'.table ≤ t) :
    ∃ pts', pts <+: pts' ∧ Layout inl t st' pts' (inst.calls ++ rest) := by
  obtain ⟨site, callers, hw⟩ := h.waits w List.mem_cons_self
  exact ⟨_, List.prefix_append _ _, spliced_layout h hw hs ht⟩

end Splice

end Inliner

end PointsTo
