import Mathlib.Logic.Relation
import PointsTo.Proofs.Inline.Walks

/-! When no call was cut off by the depth limit, no method is active twice. A method that could call
itself again would reach the limit sooner or later. -/
namespace PointsTo

namespace Inliner

variable {inl : Inliner} {t : PointerTable} {st : Inlining} {pts : List Point} {a s : Activation}
  {cs : List Activation} {c : Call} {callee k : MethodId}

def CallsAt (inl : Inliner) (m : MethodId) (j : Nat) (c : Call) : Prop :=
  ∃ first last, (segments (inl.stmtsOf m).length
      (blockStarts inl.hooks (inl.stmtsOf m)).toList)[j]? = some (first, last) ∧
    (inl.stmtsOf m)[last]? = some (.call c) ∧ inl.hooks c = none

def Calls (inl : Inliner) (m k : MethodId) : Prop :=
  ∃ j c, inl.CallsAt m j c ∧ inl.callee? c = some k

theorem blockAt_eq_some {lb : LocalBlock} (h : inl.blockAt t a = some lb) :
    (methodBlocks inl.hooks a.method (inl.stmtsOf a.method) a.receiver t).1[a.block]? = some lb :=
  h

theorem callAt_of_stmt {lb : LocalBlock} {stmt : Stmt} (hn : inl.Numbered t (.block a cs))
    (hb : inl.blockAt t a = some lb) (hs : (inl.stmtsOf a.method)[lb.last]? = some stmt) :
    inl.callAt t a = (stmt.effect inl.hooks a.method a.receiver lb.last).call? := by
  rw [callAt, hb, Option.bind_some, block_call hn (blockAt_eq_some hb) hs]

theorem callAt_eq_some (hn : inl.Numbered t (.block a cs)) :
    inl.callAt t a = some c ↔ inl.CallsAt a.method a.block c := by
  have hsegment := getElem?_segments (inl.stmtsOf a.method).length
    (blockStarts inl.hooks (inl.stmtsOf a.method)).toList a.block
  unfold CallsAt
  cases hb : inl.blockAt t a with
  | none =>
    have hnone := hb
    rw [blockAt, blocksOf, getElem?_methodBlocks, Option.map_eq_none_iff] at hnone
    rw [callAt, hb, hsegment, hnone]
    simp
  | some lb =>
    have hlb := blockAt_eq_some hb
    obtain ⟨hfirst, hlast, -⟩ := methodBlocks_eq_some hlb
    rw [hfirst, Option.map_some, ← hlast] at hsegment
    have hs := List.getElem?_eq_getElem (block_bounds hlb).2
    rw [callAt_of_stmt hn hb hs, effect_call?, hsegment]
    constructor
    · rintro ⟨hcall, hhook⟩
      exact ⟨lb.first, lb.last, rfl, hs.trans (congrArg some hcall), hhook⟩
    · rintro ⟨first, last, heq, hcall, hhook⟩
      cases heq
      exact ⟨Option.some.inj (hs.symm.trans hcall), hhook⟩

theorem mem_of_next {p q : Point} (hl : Layout inl t st pts []) (hp : p ∈ pts)
    (hq : q ∈ inl.next t p) : q ∈ pts := by
  obtain ⟨b, hb⟩ := List.mem_iff_getElem?.1 hp
  obtain ⟨x, -, hx⟩ := (hl.step_iff hb).1 hq
  exact List.mem_of_getElem? hx

theorem next_of_entered (h : inl.entered t a cs = some (c, callee)) :
    .enter a cs ∈ inl.next t (.block a cs) ∧
      .block ⟨callee, receiverOf a.method c, 0⟩ (a :: cs) ∈ inl.next t (.enter a cs) := by
  constructor
  · rw [next, h]
    exact List.mem_singleton_self _
  · rw [next, h]
    exact List.mem_singleton_self _

theorem block_of_entered (hl : Layout inl t st pts []) (ha : .block a cs ∈ pts)
    (h : inl.entered t a cs = some (c, callee)) :
    .block ⟨callee, receiverOf a.method c, 0⟩ (a :: cs) ∈ pts := by
  obtain ⟨henter, hblock⟩ := next_of_entered h
  exact mem_of_next hl (mem_of_next hl ha henter) hblock

section Depth

variable (hl : Layout inl t st pts []) (he : st.stats.Exhaustive)

include hl he

theorem entered_of_callsAt {j : Nat} (ha : .block a cs ∈ pts) (hcall : inl.CallsAt a.method j c) :
    ∃ callee, inl.entered t { a with block := j } cs = some (c, callee) ∧
      .block { a with block := j } cs ∈ pts := by
  have hlt : j < (inl.blocksOf t a.method a.receiver).length := by
    obtain ⟨first, last, hsegment, -⟩ := hcall
    have := (List.getElem?_eq_some_iff.1 hsegment).1
    rw [blocksOf, length_methodBlocks]
    rwa [length_segments] at this
  have hmem := (hl.whole a cs ha j).2 hlt
  have hcallAt := (callAt_eq_some (c := c) (hl.numbered _ hmem)).2 hcall
  have hentered := hl.exhaustive he _ cs hmem (by rw [hcallAt]; exact Option.some_ne_none c)
  obtain ⟨⟨c', callee⟩, h⟩ := Option.ne_none_iff_exists'.1 hentered
  obtain rfl := Option.some.inj (hcallAt.symm.trans (entered_eq_some.1 h).1)
  exact ⟨callee, h, hmem⟩

theorem deeper_of_calls (ha : .block a cs ∈ pts) (hcalls : inl.Calls a.method k) :
    cs.length < inl.maxDepth ∧
      ∃ b s, .block b (s :: cs) ∈ pts ∧ b.method = k := by
  obtain ⟨j, c, hcall, hcallee⟩ := hcalls
  obtain ⟨callee, hentered, hmem⟩ := entered_of_callsAt hl he ha hcall
  obtain ⟨-, hcallee', hdepth⟩ := entered_eq_some.1 hentered
  obtain rfl := Option.some.inj (hcallee.symm.trans hcallee')
  exact ⟨hdepth, _, _, block_of_entered hl hmem hentered, rfl⟩

theorem deeper_of_transGen (ha : .block a cs ∈ pts)
    (hcalls : Relation.TransGen inl.Calls a.method k) :
    ∃ b cs', .block b cs' ∈ pts ∧ b.method = k ∧ cs.length < cs'.length := by
  induction hcalls with
  | single h =>
    obtain ⟨-, b, s, hb, hk⟩ := deeper_of_calls hl he ha h
    exact ⟨b, s :: cs, hb, hk, Nat.lt_add_one _⟩
  | tail _ h ih =>
    obtain ⟨b, cs', hb, rfl, hlt⟩ := ih
    obtain ⟨-, b', s, hb', hk⟩ := deeper_of_calls hl he hb h
    exact ⟨b', s :: cs', hb', hk, Nat.lt_trans hlt (Nat.lt_add_one _)⟩

/-- A method with an instance does not lead back to itself. -/
theorem not_recursive (ha : .block a cs ∈ pts) :
    ¬ Relation.TransGen inl.Calls a.method a.method := by
  intro hloop
  -- going around the loop again and again leaves the depth limit behind
  have hdeep : ∀ n, ∃ b cs', .block b cs' ∈ pts ∧ b.method = a.method ∧ n ≤ cs'.length := by
    intro n
    induction n with
    | zero => exact ⟨a, cs, ha, rfl, Nat.zero_le _⟩
    | succ n ih =>
      obtain ⟨b, cs₁, hb, hm, hn⟩ := ih
      obtain ⟨b', cs₂, hb', hm', hlt⟩ :=
        deeper_of_transGen hl he hb (hm.symm ▸ hloop : Relation.TransGen _ b.method a.method)
      exact ⟨b', cs₂, hb', hm', by omega⟩
  obtain ⟨b, cs', hb, hm, hn⟩ := hdeep inl.maxDepth
  obtain ⟨k, hcalls, -⟩ := Relation.TransGen.head'_iff.1 (hm.symm ▸ hloop :
    Relation.TransGen inl.Calls b.method a.method)
  have := (deeper_of_calls hl he hb hcalls).1
  omega

end Depth

inductive Stacked (inl : Inliner) (t : PointerTable) (pts : List Point) :
    Activation → List Activation → Prop where
  | bottom (a : Activation) : .block a [] ∈ pts → Stacked inl t pts a []
  | called (a s : Activation) (cs : List Activation) (c : Call) : .block a (s :: cs) ∈ pts →
      inl.entered t s cs = some (c, a.method) → a.receiver = receiverOf s.method c →
      Stacked inl t pts s cs → Stacked inl t pts a (s :: cs)

namespace Stacked

theorem mem (h : Stacked inl t pts a cs) : .block a cs ∈ pts := by
  cases h with
  | bottom a ha => exact ha
  | called a s cs c ha => exact ha

theorem move {j : Nat} (h : Stacked inl t pts a cs) (hj : .block { a with block := j } cs ∈ pts) :
    Stacked inl t pts { a with block := j } cs := by
  cases h with
  | bottom a ha => exact .bottom _ hj
  | called a s cs c ha hentered hreceiver hbelow =>
    exact .called _ s cs c hj hentered hreceiver hbelow

theorem calls (hl : Layout inl t st pts []) (h : Stacked inl t pts a cs) :
    ∀ s ∈ cs, Relation.TransGen inl.Calls s.method a.method := by
  induction h with
  | bottom =>
    intro s hs
    cases hs
  | called a s cs c ha hentered hreceiver hbelow ih =>
    obtain ⟨hcall, hcallee, -⟩ := entered_eq_some.1 hentered
    have hcalls : inl.Calls s.method a.method :=
      ⟨s.block, c, (callAt_eq_some (hl.numbered _ hbelow.mem)).1 hcall, hcallee⟩
    intro s' hs'
    rcases List.mem_cons.1 hs' with rfl | hs'
    · exact .single hcalls
    · exact .tail (ih s' hs') hcalls

/-- No method is active twice. -/
theorem nodup (hl : Layout inl t st pts []) (he : st.stats.Exhaustive)
    (h : Stacked inl t pts a cs) : (a.method :: cs.map (·.method)).Nodup := by
  induction h with
  | bottom => exact List.pairwise_singleton _ _
  | called a s cs c ha hentered hreceiver hbelow ih =>
    refine List.nodup_cons.2 ⟨fun hmem => ?_, ih⟩
    obtain ⟨s', hs', hm⟩ := List.mem_map.1 hmem
    have hcalls := calls hl (.called a s cs c ha hentered hreceiver hbelow) s' hs'
    exact not_recursive hl he ha (hm ▸ hcalls)

end Stacked

end Inliner

end PointsTo
