import PointsTo.Proofs.Inline.Census

/-! No call gets lost. Calls wait on a stack between the time they are found and the time they are
spliced, but in the end every call of every instance leads into an instance of its own, lies too
deep, or has no method to run, and the statistics tell how many calls went each way. -/
namespace PointsTo

/-- Block `enter` stands between block `b` alone and the first block of an instance of the callee,
into which no other call leads. -/
structure Inlined.LeadsInto (i : Inlined) (b : Nat) (callee : MethodId) (depth enter : Nat) :
    Prop where
  kind : i.kindAt enter = some (.enter callee depth)
  only : i.draft.successors b = [enter]
  own : ∀ b', enter ∈ i.draft.successors b' ↔ b' = b
  instanceOf : ∃ start last, i.draft.successors enter = [start] ∧
    i.kindAt start = some (.body callee 0 last depth) ∧ ∀ enter' callee' depth',
      start ∈ i.draft.successors enter' → i.kindAt enter' = some (.enter callee' depth') →
        enter' = enter

namespace Inliner

section Classes

variable (inl : Inliner) (i : Inlined) (b : Nat)

def EndsWith (depth : Nat) (c : Call) : Prop :=
  ∃ m first last, i.kindAt b = some (.body m first last depth) ∧
    (inl.stmtsOf m)[last]? = some (.call c) ∧ inl.hooks c = none

def Spliced : Prop :=
  ∃ depth c callee enter, inl.EndsWith i b depth c ∧ inl.callee? c = some callee ∧
    i.LeadsInto b callee (depth + 1) enter

/-- The call resolves to a method with a body, but its instance lies at the limit. -/
def Truncated : Prop :=
  ∃ c callee, inl.EndsWith i b inl.maxDepth c ∧ inl.callee? c = some callee

def Unresolved : Prop := ∃ depth c, inl.EndsWith i b depth c ∧ inl.callee? c = none

end Classes

/-- Every call is in just one class, and the statistics are the sizes of the classes. -/
structure Accounts (inl : Inliner) (i : Inlined) : Prop where
  classes : ∀ b depth c, inl.EndsWith i b depth c →
    (inl.Spliced i b ∧ ¬ inl.Truncated i b ∧ ¬ inl.Unresolved i b) ∨
      (¬ inl.Spliced i b ∧ inl.Truncated i b ∧ ¬ inl.Unresolved i b) ∨
      (¬ inl.Spliced i b ∧ ¬ inl.Truncated i b ∧ inl.Unresolved i b)
  inner : ∀ b m first last depth, i.kindAt b = some (.body m first last depth) →
    ∀ x c, first ≤ x → x < last → (inl.stmtsOf m)[x]? = some (.call c) → inl.hooks c ≠ none
  spliced : {b | inl.Spliced i b}.ncard = i.stats.spliced
  truncated : {b | inl.Truncated i b}.ncard = i.stats.truncated
  unresolved : {b | inl.Unresolved i b}.ncard = i.stats.unresolved
  instances : i.stats.instances = i.stats.spliced + 1
  enters : {b | ∃ callee depth, i.kindAt b = some (.enter callee depth)}.ncard = i.stats.spliced
  leaves : {b | ∃ callee depth, i.kindAt b = some (.leave callee depth)}.ncard = i.stats.spliced

variable {inl : Inliner} {entry : MethodId} {i : Inlined} {pts : List Point} {b depth : Nat}
  {p q : Point} {c : Call} {callee : MethodId} {a : Activation} {cs : List Activation}

theorem block_of_enter_mem {t : PointerTable} (h : .enter a cs ∈ inl.next t p) :
    p = .block a cs ∧ (inl.entered t a cs).isSome = true := by
  have hafter : ∀ a' cs', .enter a cs ∉ inl.afterwards t a' cs' := by
    intro a' cs' hmem
    rcases mem_afterwards.1 hmem with ⟨j, -, hq⟩ | ⟨-, s, cs'', -, hq⟩
    · cases hq
    · cases hq
  cases p with
  | block a' cs' =>
    rw [next] at h
    split at h
    · next hentered =>
      cases List.mem_singleton.1 h
      exact ⟨rfl, hentered⟩
    · exact absurd h (hafter a' cs')
  | enter a' cs' =>
    obtain ⟨found, -, hq⟩ := List.mem_map.1 h
    cases hq
  | leave a' cs' => exact absurd h (hafter a' cs')

theorem callOf_eq_some {t : PointerTable} {lb : LocalBlock} (hn : inl.Numbered t (.block a cs))
    (hlb : inl.blockAt t a = some lb) : inl.callOf (.block a cs) = some c ↔
      (inl.stmtsOf a.method)[lb.last]? = some (.call c) ∧ inl.hooks c = none := by
  have hs := List.getElem?_eq_getElem (block_bounds (blockAt_eq_some hlb)).2
  change (inl.namedAt a).bind (·.call) = some c ↔ _
  rw [← callAt_eq hn, callAt_of_stmt hn hlb hs, effect_call?, hs, Option.some.injEq]

theorem any_callOf {f : Call → Bool} : (inl.callOf p).any f = true ↔
    ∃ a cs c, p = .block a cs ∧ inl.callOf p = some c ∧ f c = true := by
  rw [Option.any_eq_true]
  constructor
  · rintro ⟨c, hc, hf⟩
    cases p with
    | block a cs => exact ⟨a, cs, c, rfl, hc, hf⟩
    | enter a cs => cases hc
    | leave a cs => cases hc
  · rintro ⟨-, -, c, -, hc, hf⟩
    exact ⟨c, hc, hf⟩

theorem isFollowed_iff : inl.isFollowed p = true ↔ ∃ a cs c, p = .block a cs ∧
    inl.callOf p = some c ∧ cs.length < inl.maxDepth ∧ ∃ callee, inl.callee? c = some callee := by
  rw [isFollowed, Bool.and_eq_true, any_callOf]
  constructor
  · rintro ⟨⟨a, cs, c, rfl, hc, hcallee⟩, hd⟩
    exact ⟨a, cs, c, rfl, hc, of_decide_eq_true hd, Option.isSome_iff_exists.1 hcallee⟩
  · rintro ⟨a, cs, c, rfl, hc, hd, hcallee⟩
    exact ⟨⟨a, cs, c, rfl, hc, Option.isSome_iff_exists.2 hcallee⟩, decide_eq_true hd⟩

theorem isTruncated_iff : inl.isTruncated p = true ↔ ∃ a cs c, p = .block a cs ∧
    inl.callOf p = some c ∧ inl.maxDepth ≤ cs.length ∧ ∃ callee, inl.callee? c = some callee := by
  rw [isTruncated, Bool.and_eq_true, any_callOf]
  constructor
  · rintro ⟨⟨a, cs, c, rfl, hc, hcallee⟩, hd⟩
    exact ⟨a, cs, c, rfl, hc, of_decide_eq_true hd, Option.isSome_iff_exists.1 hcallee⟩
  · rintro ⟨a, cs, c, rfl, hc, hd, hcallee⟩
    exact ⟨⟨a, cs, c, rfl, hc, Option.isSome_iff_exists.2 hcallee⟩, decide_eq_true hd⟩

theorem isUnresolved_iff : inl.isUnresolved p = true ↔ ∃ a cs c, p = .block a cs ∧
    inl.callOf p = some c ∧ inl.callee? c = none := by
  rw [isUnresolved, any_callOf]
  simp only [Option.isNone_iff_eq_none]

namespace CountsPoints

variable (h : inl.CountsPoints entry i pts)

include h

theorem point_unique {b' : Nat} (hb : pts[b]? = some p) (hb' : pts[b']? = some p) : b = b' :=
  (List.getElem?_inj (List.getElem?_eq_some_iff.1 hb).1 h.distinct).1 (hb.trans hb'.symm)

theorem point_of_edge {b' : Nat} (hb : b' ∈ i.draft.successors b) :
    ∃ p q, pts[b]? = some p ∧ pts[b']? = some q ∧ q ∈ inl.next i.table p := by
  have hlt : b < pts.length := by
    by_contra hge
    rw [Draft.successors_of_size_le h.wellFormed (h.size ▸ Nat.le_of_not_lt hge)] at hb
    cases hb
  have hlt' : b' < pts.length := h.size ▸ h.inside b b' hb
  have hp := List.getElem?_eq_getElem hlt
  have hq := List.getElem?_eq_getElem hlt'
  exact ⟨_, _, hp, hq, (h.leads b _ hp _).2 ⟨b', hb, hq⟩⟩

theorem successors_of_next (hb : pts[b]? = some p) (hnext : inl.next i.table p = [q]) :
    ∃ b', i.draft.successors b = [b'] ∧ pts[b']? = some q := by
  obtain ⟨b', hb', hq⟩ := (h.leads b p hb q).1 (hnext ▸ List.mem_singleton_self q)
  refine ⟨b', ?_, hq⟩
  have hall : ∀ x ∈ i.draft.successors b, x = b' := by
    intro x hx
    obtain ⟨p', q', hp', hq', hstep⟩ := h.point_of_edge hx
    cases hb.symm.trans hp'
    rw [hnext, List.mem_singleton] at hstep
    exact h.point_unique (hstep ▸ hq') hq
  refine List.perm_singleton.1 ((List.perm_ext_iff_of_nodup (h.simple b)
    (List.nodup_singleton b')).2 fun x => ?_)
  rw [List.mem_singleton]
  exact ⟨hall x, fun hx => hx ▸ hb'⟩

theorem endsWith_iff : inl.EndsWith i b depth c ↔
    ∃ a cs, pts[b]? = some (.block a cs) ∧ cs.length = depth ∧
      inl.callOf (.block a cs) = some c := by
  constructor
  · rintro ⟨m, first, last, hkind, hs, hhook⟩
    obtain ⟨a, cs, lb, hp, hlb, rfl, -, rfl, rfl⟩ := h.kindAt_body.1 hkind
    exact ⟨a, cs, hp, rfl,
      (callOf_eq_some (h.numbered _ (List.mem_of_getElem? hp)) hlb).2 ⟨hs, hhook⟩⟩
  · rintro ⟨a, cs, hp, rfl, hcall⟩
    obtain ⟨block, -, hfor⟩ := h.block_at hp
    obtain ⟨lb, hlb, -⟩ := Option.map_eq_some_iff.1 hfor
    obtain ⟨hs, hhook⟩ := (callOf_eq_some (h.numbered _ (List.mem_of_getElem? hp)) hlb).1 hcall
    exact ⟨_, _, _, h.kindAt_body.2 ⟨a, cs, lb, hp, hlb, rfl, rfl, rfl, rfl⟩, hs, hhook⟩

theorem kindAt_enter {callee : MethodId} : i.kindAt b = some (.enter callee depth) ↔
    ∃ a cs c, pts[b]? = some (.enter a cs) ∧ inl.entered i.table a cs = some (c, callee) ∧
      cs.length + 1 = depth := by
  rw [h.kindAt_eq_some]
  constructor
  · rintro ⟨p, hp, hk⟩
    obtain ⟨block, hfor, hk⟩ := Option.map_eq_some_iff.1 hk
    cases p with
    | block a cs =>
      obtain ⟨lb, -, rfl⟩ := Option.map_eq_some_iff.1 hfor
      cases hk
    | enter a cs =>
      obtain ⟨⟨c, callee⟩, hentered, rfl⟩ := Option.map_eq_some_iff.1 hfor
      cases hk
      exact ⟨a, cs, c, hp, hentered, rfl⟩
    | leave a cs =>
      obtain ⟨found, -, rfl⟩ := Option.map_eq_some_iff.1 hfor
      cases hk
  · rintro ⟨a, cs, c, hp, hentered, rfl⟩
    exact ⟨_, hp, by rw [blockFor, hentered]; rfl⟩

/-- A call that the machine follows has an instance of its own. -/
theorem leadsInto (hb : pts[b]? = some (.block a cs))
    (hentered : inl.entered i.table a cs = some (c, callee)) :
    ∃ enter, i.LeadsInto b callee (cs.length + 1) enter := by
  have hnext : inl.next i.table (.block a cs) = [.enter a cs] := by
    rw [next, hentered]
    rfl
  have hnext' : inl.next i.table (.enter a cs) =
      [.block ⟨callee, receiverOf a.method c, 0⟩ (a :: cs)] := by
    rw [next, hentered]
    rfl
  obtain ⟨enter, honly, henter⟩ := h.successors_of_next hb hnext
  obtain ⟨start, hstart, hfirst⟩ := h.successors_of_next henter hnext'
  refine ⟨enter, ?_⟩
  constructor
  case kind => exact h.kindAt_enter.2 ⟨a, cs, c, henter, hentered, rfl⟩
  case only => exact honly
  case own =>
    intro b'
    constructor
    · intro hb'
      obtain ⟨p, q, hp, hq, hstep⟩ := h.point_of_edge hb'
      cases henter.symm.trans hq
      exact h.point_unique ((block_of_enter_mem hstep).1 ▸ hp) hb
    · rintro rfl
      rw [honly]
      exact List.mem_singleton_self enter
  case instanceOf =>
    obtain ⟨block, -, hfor⟩ := h.block_at hfirst
    obtain ⟨lb, hlb, -⟩ := Option.map_eq_some_iff.1 hfor
    refine ⟨start, lb.last, hstart, ?_, ?_⟩
    · exact h.kindAt_body.2 ⟨_, _, lb, hfirst, hlb, rfl, first_of_zero (blockAt_eq_some hlb), rfl,
        rfl⟩
    · intro enter' callee' depth' hedge hkind
      obtain ⟨a', cs', c', henter', hentered', -⟩ := h.kindAt_enter.1 hkind
      obtain ⟨p, q, hp, hq, hstep⟩ := h.point_of_edge hedge
      cases henter'.symm.trans hp
      cases hfirst.symm.trans hq
      rw [next, hentered'] at hstep
      obtain ⟨-, hsites⟩ := Point.block.inj (List.mem_singleton.1 hstep)
      cases hsites
      exact h.point_unique henter' henter

theorem spliced_iff (hp : pts[b]? = some p) : inl.Spliced i b ↔ inl.isFollowed p = true := by
  rw [isFollowed_iff]
  constructor
  · rintro ⟨depth, c, callee, enter, hends, hcallee, hleads⟩
    obtain ⟨a, cs, hp', rfl, hcall⟩ := h.endsWith_iff.1 hends
    cases hp.symm.trans hp'
    obtain ⟨a', cs', c', henter, -, hdepth⟩ := h.kindAt_enter.1 hleads.kind
    have hlimit : cs'.length + 1 ≤ inl.maxDepth := h.depth _ (List.mem_of_getElem? henter)
    exact ⟨a, cs, c, rfl, hcall, by omega, callee, hcallee⟩
  · rintro ⟨a, cs, c, rfl, hcall, hd, callee, hcallee⟩
    have hn := h.numbered _ (List.mem_of_getElem? hp)
    have hentered : inl.entered i.table a cs = some (c, callee) :=
      (entered_eq_followed hn cs).trans (followed_eq_some.2 ⟨hd, hcall, hcallee⟩)
    obtain ⟨enter, hleads⟩ := h.leadsInto hp hentered
    exact ⟨_, c, callee, enter, h.endsWith_iff.2 ⟨a, cs, hp, rfl, hcall⟩, hcallee, hleads⟩

theorem truncated_iff (hp : pts[b]? = some p) :
    inl.Truncated i b ↔ inl.isTruncated p = true := by
  rw [isTruncated_iff]
  constructor
  · rintro ⟨c, callee, hends, hcallee⟩
    obtain ⟨a, cs, hp', hdepth, hcall⟩ := h.endsWith_iff.1 hends
    cases hp.symm.trans hp'
    exact ⟨a, cs, c, rfl, hcall, hdepth.ge, callee, hcallee⟩
  · rintro ⟨a, cs, c, rfl, hcall, hd, callee, hcallee⟩
    have hlimit : cs.length ≤ inl.maxDepth := h.depth _ (List.mem_of_getElem? hp)
    exact ⟨c, callee, h.endsWith_iff.2 ⟨a, cs, hp, Nat.le_antisymm hlimit hd, hcall⟩, hcallee⟩

theorem unresolved_iff (hp : pts[b]? = some p) :
    inl.Unresolved i b ↔ inl.isUnresolved p = true := by
  rw [isUnresolved_iff]
  constructor
  · rintro ⟨depth, c, hends, hcallee⟩
    obtain ⟨a, cs, hp', -, hcall⟩ := h.endsWith_iff.1 hends
    cases hp.symm.trans hp'
    exact ⟨a, cs, c, rfl, hcall, hcallee⟩
  · rintro ⟨a, cs, c, rfl, hcall, hcallee⟩
    exact ⟨_, c, h.endsWith_iff.2 ⟨a, cs, hp, rfl, hcall⟩, hcallee⟩

theorem enter_iff (hp : pts[b]? = some p) :
    (∃ callee depth, i.kindAt b = some (.enter callee depth)) ↔ p.isEnter = true := by
  obtain ⟨block, hb, hfor⟩ := h.block_at hp
  rw [Inlined.kindAt, hb]
  cases p <;> obtain ⟨x, -, rfl⟩ := Option.map_eq_some_iff.1 hfor <;> simp [Point.isEnter]

theorem leave_iff (hp : pts[b]? = some p) :
    (∃ callee depth, i.kindAt b = some (.leave callee depth)) ↔ p.isLeave = true := by
  obtain ⟨block, hb, hfor⟩ := h.block_at hp
  rw [Inlined.kindAt, hb]
  cases p <;> obtain ⟨x, -, rfl⟩ := Option.map_eq_some_iff.1 hfor <;> simp [Point.isLeave]

theorem inside_of_endsWith (hends : inl.EndsWith i b depth c) : b < pts.length := by
  obtain ⟨a, cs, hp, -⟩ := h.endsWith_iff.1 hends
  exact (List.getElem?_eq_some_iff.1 hp).1

theorem kindAt_inside {kind : BlockKind} (hb : i.kindAt b = some kind) : b < pts.length := by
  obtain ⟨p, hp, -⟩ := h.kindAt_eq_some.1 hb
  exact (List.getElem?_eq_some_iff.1 hp).1

end CountsPoints

/-- Whatever the program and the resolver are, inlining accounts for every call just once. -/
theorem run_accounts (hrun : inl.run entry = .ok (some i)) : inl.Accounts i := by
  obtain ⟨pts, h⟩ := run_countsPoints hrun
  obtain ⟨hinstances, hspliced, htruncated, hunresolved⟩ := inl.census_counts pts
  rw [← h.stats] at hinstances hspliced htruncated hunresolved
  constructor
  case classes =>
    intro b depth c hends
    obtain ⟨a, cs, hp, -, hcall⟩ := h.endsWith_iff.1 hends
    rw [h.spliced_iff hp, h.truncated_iff hp, h.unresolved_iff hp]
    unfold isFollowed isTruncated isUnresolved
    rw [hcall]
    cases hcallee : inl.callee? c with
    | none => simp [hcallee]
    | some callee =>
      rcases Nat.lt_or_ge cs.length inl.maxDepth with hd | hd
      · simp [hcallee, Point.callers, hd, Nat.not_le.2 hd]
      · simp [hcallee, Point.callers, hd, Nat.not_lt.2 hd]
  case inner =>
    intro b m first last depth hkind x c hfirst hlast hs hhook
    obtain ⟨a, cs, lb, -, hlb, rfl, rfl, rfl, -⟩ := h.kindAt_body.1 hkind
    have := ends_last (blockAt_eq_some hlb) hfirst (Nat.le_of_lt hlast) hs (endsBlock_of_call hhook)
    omega
  case spliced =>
    rw [hspliced, ← h.followed]
    refine ncard_eq_countP ?_ fun b p hp => h.spliced_iff hp
    rintro b ⟨depth, c, callee, enter, hends, -⟩
    exact h.inside_of_endsWith hends
  case truncated =>
    rw [htruncated]
    refine ncard_eq_countP ?_ fun b p hp => h.truncated_iff hp
    rintro b ⟨c, callee, hends, -⟩
    exact h.inside_of_endsWith hends
  case unresolved =>
    rw [hunresolved]
    refine ncard_eq_countP ?_ fun b p hp => h.unresolved_iff hp
    rintro b ⟨depth, c, hends, -⟩
    exact h.inside_of_endsWith hends
  case instances => exact h.instances
  case enters =>
    rw [hspliced]
    refine ncard_eq_countP ?_ fun b p hp => h.enter_iff hp
    rintro b ⟨callee, depth, hb⟩
    exact h.kindAt_inside hb
  case leaves =>
    rw [hspliced, ← h.returns]
    refine ncard_eq_countP ?_ fun b p hp => h.leave_iff hp
    rintro b ⟨callee, depth, hb⟩
    exact h.kindAt_inside hb

/-- Two calls are spliced, and the one in the instance of the second lies too deep. -/
theorem looping_calls_accounted : ∃ i, loopingCalls.run 0 = .ok (some i) ∧
    loopingCalls.Accounts i ∧ i.stats = ⟨3, 2, 1, 0, 2⟩ := by
  obtain ⟨r, hrun, hstats⟩ : ∃ r, loopingCalls.run 0 = .ok r ∧
    r.map (·.stats) = some ⟨3, 2, 1, 0, 2⟩ := exists_ok (by decide +kernel)
  obtain ⟨i, rfl, htotal⟩ := Option.map_eq_some_iff.1 hstats
  exact ⟨i, hrun, run_accounts hrun, htotal⟩

end Inliner

end PointsTo
