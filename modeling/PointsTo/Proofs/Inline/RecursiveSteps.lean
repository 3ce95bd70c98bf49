import PointsTo.Proofs.Inline.Recursive

/-! The graph that is defined by recursion leads where the machine goes, and copies what the machine
copies. -/
namespace PointsTo

structure Block.Denotes (t : PointerTable) (b : Block) (n : Node) : Prop where
  kind : b.kind = n.kind
  origin : ∀ c ∈ b.copies, c.origin = n.origin
  copies : List.Forall₂ (Copy.Names t) b.copies n.copies
  mark : Option.Rel (TestMark.Names t) b.mark n.mark

namespace Inliner

variable {inl : Inliner} {t : PointerTable} {m : MethodId} {receiver : Option Var}
  {callers : List Activation} {a : Activation} {c : Call} {callee : MethodId} {p q : Point}

def wayOut : List Activation → List Point
  | [] => []
  | site :: callers => [.leave site callers]

theorem not_mem_wayOut_of_callers (h : callers <:+ q.callers) : q ∉ wayOut callers := by
  cases callers with
  | nil => exact List.not_mem_nil
  | cons site callers =>
    intro hq
    obtain rfl := List.mem_singleton.1 hq
    have := h.length_le
    simp only [Point.callers, List.length_cons] at this
    omega

section Activation

variable (ht : (methodBlocks inl.hooks a.method (inl.stmtsOf a.method) a.receiver t).2 = t)

theorem length_blocksOf : (inl.blocksOf t m receiver).length =
    (inl.namedBlocksOf m receiver).length :=
  length_methodBlocks.trans length_namedBlocks.symm

include ht in
theorem blockAt_cases : (inl.blockAt t a = none ∧ inl.namedAt a = none) ∨
    ∃ lb nb, inl.blockAt t a = some lb ∧ inl.namedAt a = some nb ∧ lb.Denotes t nb := by
  cases hb : inl.blockAt t a with
  | some lb =>
    obtain ⟨nb, hnb, hd⟩ := block_denotes ht hb
    exact .inr ⟨lb, nb, rfl, hnb, hd⟩
  | none =>
    have hlen : (inl.namedBlocksOf a.method a.receiver).length ≤ a.block :=
      length_blocksOf (t := t) ▸ List.getElem?_eq_none_iff.1 hb
    exact .inl ⟨rfl, List.getElem?_eq_none_iff.2 hlen⟩

include ht in
theorem callAt_eq : inl.callAt t a = (inl.namedAt a).bind (·.call) := by
  unfold callAt
  rcases blockAt_cases ht with ⟨hb, hnamed⟩ | ⟨lb, nb, hb, hnamed, hd⟩
  · rw [hb, hnamed]
    rfl
  · rw [hb, hnamed]
    exact hd.call

include ht in
/-- The machine follows the calls that are followed in the graph. -/
theorem entered_eq_followed (callers : List Activation) :
    inl.entered t a callers = inl.followed a callers := by
  unfold entered followed resolved
  rw [callAt_eq ht]
  by_cases hd : callers.length < inl.maxDepth
  · simp only [if_pos hd, Option.bind_eq_bind, Option.bind_assoc]
    rfl
  · simp only [if_neg hd, Option.bind_eq_bind, Option.bind_fun_none]

include ht in
theorem following_eq (callers : List Activation) : inl.following a callers =
    (inl.succsAt t a).map fun j => .block { a with block := j } callers := by
  unfold following succsAt
  rcases blockAt_cases ht with ⟨hb, hnamed⟩ | ⟨lb, nb, hb, hnamed, hd⟩
  · rw [hb, hnamed]
    rfl
  · rw [hb, hnamed, Option.elim_some, Option.elim_some, hd.succs]

include ht in
theorem afterwards_eq (callers : List Activation) : inl.afterwards t a callers =
    if (inl.following a callers).isEmpty then wayOut callers else inl.following a callers := by
  rw [following_eq ht]
  unfold afterwards
  cases inl.succsAt t a with
  | nil => cases callers <;> rfl
  | cons j js => rfl

include ht in
theorem mem_following_iff : q ∈ inl.following a callers ↔
    q ∈ inl.afterwards t a callers ∧ q ∉ wayOut callers := by
  rw [afterwards_eq ht]
  have hinside : q ∈ inl.following a callers → q ∉ wayOut callers := by
    intro hq
    rw [following_eq ht] at hq
    obtain ⟨j, -, rfl⟩ := List.mem_map.1 hq
    exact not_mem_wayOut_of_callers (List.suffix_refl _)
  split
  · next he =>
    rw [List.isEmpty_iff.1 he]
    simp
  · exact ⟨fun hq => ⟨hq, hinside hq⟩, And.left⟩

include ht in
theorem following_isEmpty_iff : (inl.following a callers).isEmpty = true ↔
    ∀ q ∈ inl.afterwards t a callers, q ∈ wayOut callers := by
  constructor
  · intro he q hq
    rw [afterwards_eq ht, if_pos he] at hq
    exact hq
  · intro hout
    rw [List.isEmpty_iff, List.eq_nil_iff_forall_not_mem]
    intro q hq
    obtain ⟨hafter, hnot⟩ := (mem_following_iff ht).1 hq
    exact hnot (hout q hafter)

include ht in
theorem afterwards_ne_nil (hc : callers ≠ []) : inl.afterwards t a callers ≠ [] := by
  rw [afterwards_eq ht]
  split
  · cases callers with
    | nil => exact absurd rfl hc
    | cons site callers => exact List.cons_ne_nil _ _
  · next hne => simpa using hne

include ht in
theorem next_block (callers : List Activation) : inl.next t (.block a callers) =
    if (inl.followed a callers).isSome then [.enter a callers] else inl.afterwards t a callers := by
  rw [next, entered_eq_followed ht]

include ht in
theorem mem_onward_iff : q ∈ inl.onward a callers ↔
    q ∈ inl.next t (.block a callers) ∧ q ∉ wayOut callers := by
  rw [next_block ht, onward]
  split
  · rw [List.mem_singleton]
    constructor
    · rintro rfl
      exact ⟨rfl, not_mem_wayOut_of_callers (List.suffix_refl _)⟩
    · exact And.left
  · exact mem_following_iff ht

include ht in
theorem onward_isEmpty_iff : (inl.onward a callers).isEmpty = true ↔
    ∀ q ∈ inl.next t (.block a callers), q ∈ wayOut callers := by
  rw [next_block ht, onward]
  split
  · have henter : Point.enter a callers ∉ wayOut callers :=
      not_mem_wayOut_of_callers (List.suffix_refl _)
    simp [henter]
  · exact following_isEmpty_iff ht

include ht in
theorem next_enter_of_followed (hf : inl.followed a callers = some (c, callee)) :
    inl.next t (.enter a callers) = [.block ⟨callee, receiverOf a.method c, 0⟩ (a :: callers)] := by
  rw [next, entered_eq_followed ht, hf]
  rfl

end Activation

theorem next_of_leave_mem {site : Activation} (h : .leave site callers ∈ inl.next t p) :
    inl.next t p = [.leave site callers] := by
  have hafter : ∀ a cs, .leave site callers ∈ inl.afterwards t a cs →
      inl.afterwards t a cs = [.leave site callers] := by
    intro a cs hmem
    rcases mem_afterwards.1 hmem with ⟨j, -, hq⟩ | ⟨hs, s, cs', rfl, hq⟩
    · cases hq
    · cases hq
      unfold afterwards
      rw [hs]
  cases p with
  | block a cs =>
    rw [next] at h ⊢
    split
    · next he =>
      rw [if_pos he] at h
      cases List.mem_singleton.1 h
    · next he =>
      rw [if_neg he] at h
      exact hafter a cs h
  | enter a cs =>
    obtain ⟨found, -, hq⟩ := List.mem_map.1 h
    cases hq
  | leave a cs => exact hafter a cs h

section Graphs

variable (hn : ∀ p ∈ (inl.graphOf m receiver callers).places, inl.Numbered t p)

include hn in
theorem numbered_of_activation (ha : a ∈ inl.activations m receiver) :
    (methodBlocks inl.hooks a.method (inl.stmtsOf a.method) a.receiver t).2 = t :=
  hn _ (block_mem_places ha)

include hn in
theorem numbered_callee (hcall : (a, c, callee) ∈ inl.followedCalls m receiver callers) :
    ∀ p ∈ (inl.graphOf callee (receiverOf m c) (a :: callers)).places, inl.Numbered t p :=
  fun p hp => hn p (mem_places_graphOf.2 (.inr ⟨a, c, callee, hcall, .inr (.inr hp)⟩))

/-- What a call runs is left for the block behind the call alone. -/
theorem not_mem_wayOut_of_callee
    (hp : p ∈ (inl.graphOf callee receiver (a :: callers)).places) (hq : q ∈ inl.next t p) :
    q ∉ wayOut callers := by
  have hwithin : p.Within a callers := suffix_callers_of_mem_places hp
  by_cases hin : q.Within a callers
  · exact not_mem_wayOut_of_callers (List.IsSuffix.trans (List.suffix_cons a callers) hin)
  · obtain rfl := leave_of_not_within hq hwithin hin
    exact not_mem_wayOut_of_callers (List.suffix_refl _)

theorem next_ne_nil (hc : callers ≠ [])
    (hn : ∀ p ∈ (inl.graphOf m receiver callers).places, inl.Numbered t p)
    (hp : p ∈ (inl.graphOf m receiver callers).places) : inl.next t p ≠ [] := by
  induction m, receiver, callers using @graphOf_induction inl with
  | step m receiver callers ih =>
    rcases mem_places_graphOf.1 hp with ⟨a, ha, rfl⟩ | ⟨a, c, callee, hcall, hp⟩
    · have ht := numbered_of_activation hn ha
      rw [next_block ht]
      split
      · exact List.cons_ne_nil _ _
      · exact afterwards_ne_nil ht hc
    · obtain ⟨ha, hf⟩ := mem_followedCalls.1 hcall
      have ht := numbered_of_activation hn ha
      rcases hp with rfl | rfl | hp
      · rw [next_enter_of_followed ht hf]
        exact List.cons_ne_nil _ _
      · exact afterwards_ne_nil ht hc
      · exact ih a c callee hcall (List.cons_ne_nil _ _) (numbered_callee hn hcall) hp

include hn in
/-- The exits are the blocks from which control goes nowhere but out. -/
theorem mem_exits_graphOf : p ∈ (inl.graphOf m receiver callers).exits ↔
    p ∈ (inl.graphOf m receiver callers).places ∧ ∀ q ∈ inl.next t p, q ∈ wayOut callers := by
  have hexits : p ∈ (inl.graphOf m receiver callers).exits ↔
      (∃ a ∈ inl.activations m receiver, (inl.onward a callers).isEmpty = true ∧
        p = .block a callers) ∨
      ∃ a c callee, (a, c, callee) ∈ inl.followedCalls m receiver callers ∧
        (inl.following a callers).isEmpty = true ∧ p = .leave a callers := by
    rw [graphOf_eq, Fragment.exits_append, List.mem_append, Fragment.exits_join, List.mem_flatMap]
    simp only [alone, part, around, List.mem_map, List.mem_filter, Prod.exists]
    grind
  rw [hexits, mem_places_graphOf]
  constructor
  · rintro (⟨a, ha, he, rfl⟩ | ⟨a, c, callee, hcall, he, rfl⟩)
    · have ht := numbered_of_activation hn ha
      exact ⟨.inl ⟨a, ha, rfl⟩, (onward_isEmpty_iff ht).1 he⟩
    · have ht := numbered_of_activation hn (mem_followedCalls.1 hcall).1
      exact ⟨.inr ⟨a, c, callee, hcall, .inr (.inl rfl)⟩, (following_isEmpty_iff ht).1 he⟩
  · rintro ⟨⟨a, ha, rfl⟩ | ⟨a, c, callee, hcall, hp⟩, hout⟩
    · have ht := numbered_of_activation hn ha
      exact .inl ⟨a, ha, (onward_isEmpty_iff ht).2 hout, rfl⟩
    · obtain ⟨ha, hf⟩ := mem_followedCalls.1 hcall
      have ht := numbered_of_activation hn ha
      rcases hp with rfl | rfl | hp
      · rw [next_enter_of_followed ht hf] at hout
        refine absurd (hout _ List.mem_cons_self) (not_mem_wayOut_of_callers ?_)
        exact List.suffix_cons a callers
      · exact .inr ⟨a, c, callee, hcall, (following_isEmpty_iff ht).2 hout, rfl⟩
      · obtain ⟨q, hq⟩ := List.exists_mem_of_ne_nil _
          (next_ne_nil (List.cons_ne_nil _ _) (numbered_callee hn hcall) hp)
        exact absurd (hout q hq) (not_mem_wayOut_of_callee hp hq)

theorem mem_edges_graphOf_iff : (p, q) ∈ (inl.graphOf m receiver callers).edges ↔
    (∃ a ∈ inl.activations m receiver, p = .block a callers ∧ q ∈ inl.onward a callers) ∨
      ∃ a c callee, (a, c, callee) ∈ inl.followedCalls m receiver callers ∧
        ((p = .enter a callers ∧ q = .block ⟨callee, receiverOf m c, 0⟩ (a :: callers)) ∨
          (p, q) ∈ (inl.graphOf callee (receiverOf m c) (a :: callers)).edges ∨
          (p ∈ (inl.graphOf callee (receiverOf m c) (a :: callers)).exits ∧
            q = .leave a callers) ∨
          (p = .leave a callers ∧ q ∈ inl.following a callers)) := by
  have halone : (p, q) ∈ (inl.alone m receiver callers).edges ↔
      ∃ a ∈ inl.activations m receiver, p = .block a callers ∧ q ∈ inl.onward a callers := by
    simp only [alone, List.mem_flatMap, List.mem_map, Prod.mk.injEq]
    grind
  have haround : ∀ a c callee f, (p, q) ∈ (inl.around a callers c callee f).edges ↔
      (p = .enter a callers ∧ q = .block ⟨callee, receiverOf a.method c, 0⟩ (a :: callers)) ∨
        (p, q) ∈ f.edges ∨ (p ∈ f.exits ∧ q = .leave a callers) ∨
        (p = .leave a callers ∧ q ∈ inl.following a callers) := by
    intro a c callee f
    simp only [around, List.mem_cons, List.mem_append, List.mem_map, Prod.mk.injEq]
    grind
  rw [graphOf_eq, Fragment.edges_append, List.mem_append, halone, Fragment.edges_join,
    List.mem_flatMap]
  refine or_congr_right ?_
  constructor
  · rintro ⟨f, hf, he⟩
    obtain ⟨⟨a, c, callee⟩, hcall, rfl⟩ := List.mem_map.1 hf
    obtain ⟨rfl, -⟩ := mem_activations.1 (mem_followedCalls.1 hcall).1
    exact ⟨a, c, callee, hcall, (haround _ _ _ _).1 he⟩
  · rintro ⟨a, c, callee, hcall, he⟩
    obtain ⟨rfl, -⟩ := mem_activations.1 (mem_followedCalls.1 hcall).1
    exact ⟨_, List.mem_map.2 ⟨_, hcall, rfl⟩, (haround _ _ _ _).2 he⟩

/-- The edges are the steps of the machine from one block of the graph to another. -/
theorem mem_edges_graphOf (hn : ∀ p ∈ (inl.graphOf m receiver callers).places, inl.Numbered t p) :
    (p, q) ∈ (inl.graphOf m receiver callers).edges ↔
      p ∈ (inl.graphOf m receiver callers).places ∧ q ∈ inl.next t p ∧ q ∉ wayOut callers := by
  induction m, receiver, callers using @graphOf_induction inl with
  | step m receiver callers ih =>
    rw [mem_edges_graphOf_iff, mem_places_graphOf]
    constructor
    · rintro (⟨a, ha, rfl, hq⟩ | ⟨a, c, callee, hcall, he⟩)
      · have ht := numbered_of_activation hn ha
        exact ⟨.inl ⟨a, ha, rfl⟩, (mem_onward_iff ht).1 hq⟩
      · obtain ⟨ha, hf⟩ := mem_followedCalls.1 hcall
        obtain ⟨hm, -⟩ := mem_activations.1 ha
        have ht := numbered_of_activation hn ha
        have hcallee := numbered_callee hn hcall
        rcases he with ⟨rfl, rfl⟩ | he | ⟨hp, rfl⟩ | ⟨rfl, hq⟩
        · refine ⟨.inr ⟨a, c, callee, hcall, .inl rfl⟩, ?_, ?_⟩
          · rw [next_enter_of_followed ht hf, hm]
            exact List.mem_cons_self
          · exact not_mem_wayOut_of_callers (List.suffix_cons a callers)
        · obtain ⟨hp, hq, -⟩ := (ih a c callee hcall hcallee).1 he
          exact ⟨.inr ⟨a, c, callee, hcall, .inr (.inr hp)⟩, hq, not_mem_wayOut_of_callee hp hq⟩
        · obtain ⟨hp, hout⟩ := (mem_exits_graphOf hcallee).1 hp
          obtain ⟨q, hq⟩ := List.exists_mem_of_ne_nil _
            (next_ne_nil (List.cons_ne_nil _ _) hcallee hp)
          obtain rfl := List.mem_singleton.1 (hout q hq)
          exact ⟨.inr ⟨a, c, callee, hcall, .inr (.inr hp)⟩, hq, not_mem_wayOut_of_callee hp hq⟩
        · exact ⟨.inr ⟨a, c, callee, hcall, .inr (.inl rfl)⟩, (mem_following_iff ht).1 hq⟩
    · rintro ⟨⟨a, ha, rfl⟩ | ⟨a, c, callee, hcall, hp⟩, hq⟩
      · have ht := numbered_of_activation hn ha
        exact .inl ⟨a, ha, rfl, (mem_onward_iff ht).2 hq⟩
      · refine .inr ⟨a, c, callee, hcall, ?_⟩
        obtain ⟨ha, hf⟩ := mem_followedCalls.1 hcall
        obtain ⟨hm, -⟩ := mem_activations.1 ha
        have ht := numbered_of_activation hn ha
        have hcallee := numbered_callee hn hcall
        rcases hp with rfl | rfl | hp
        · rw [next_enter_of_followed ht hf, hm] at hq
          exact .inl ⟨rfl, List.mem_singleton.1 hq.1⟩
        · exact .inr (.inr (.inr ⟨rfl, (mem_following_iff ht).2 hq⟩))
        · by_cases hleave : q = .leave a callers
          · subst hleave
            have hout : ∀ q ∈ inl.next t p, q ∈ wayOut (a :: callers) := by
              rw [next_of_leave_mem hq.1]
              exact fun q hq => hq
            exact .inr (.inr (.inl ⟨(mem_exits_graphOf hcallee).2 ⟨hp, hout⟩, rfl⟩))
          · have hinside : q ∉ wayOut (a :: callers) := by
              intro hmem
              exact hleave (List.mem_singleton.1 hmem)
            exact .inr (.inl ((ih a c callee hcall hcallee).2 ⟨hp, hq.1, hinside⟩))

theorem mem_nodes_graphOf {n : Node} : (p, n) ∈ (inl.graphOf m receiver callers).nodes ↔
    (p, n) ∈ (inl.alone m receiver callers).nodes ∨
      ∃ a c callee, (a, c, callee) ∈ inl.followedCalls m receiver callers ∧
        (p, n) ∈ (inl.around a callers c callee
          (inl.graphOf callee (receiverOf a.method c) (a :: callers))).nodes := by
  rw [graphOf_eq, Fragment.nodes_append, List.mem_append, Fragment.nodes_join, List.mem_flatMap]
  refine or_congr_right ?_
  simp only [List.mem_map, Prod.exists, part]
  grind

theorem alone_denotes (hn : ∀ p ∈ (inl.graphOf m receiver callers).places, inl.Numbered t p)
    {n : Node} (hp : (p, n) ∈ (inl.alone m receiver callers).nodes) {id : Nat} {b : Block}
    (hb : inl.blockFor t id p = some b) : b.Denotes t n := by
  obtain ⟨⟨nb, i⟩, hi, heq⟩ := List.mem_map.1 hp
  cases heq
  have hnamed : inl.namedAt ⟨m, receiver, i⟩ = some nb := List.mem_zipIdx_iff_getElem?.1 hi
  have hlt : i < (inl.namedBlocksOf m receiver).length := (List.getElem?_eq_some_iff.1 hnamed).1
  have ha : ⟨m, receiver, i⟩ ∈ inl.activations m receiver := mem_activations.2 ⟨rfl, rfl, hlt⟩
  have ht := numbered_of_activation hn ha
  obtain ⟨lb, hlb, rfl⟩ := Option.map_eq_some_iff.1 hb
  obtain ⟨nb', hnb', hd⟩ := block_denotes ht hlb
  cases hnamed.symm.trans hnb'
  obtain ⟨horigin, hcopies⟩ := (List.forall₂_and_left _ _).1 hd.copies
  constructor
  case kind => rw [hd.first, hd.last]
  case origin => exact horigin
  case copies => exact hcopies
  case mark => exact hd.mark

theorem enter_denotes (hn : inl.Numbered t (.enter a callers))
    (hf : inl.entered t a callers = some (c, callee)) {id : Nat} {b : Block}
    (hb : inl.blockFor t id (.enter a callers) = some b) : b.Denotes t
      ⟨.enter callee (callers.length + 1), .call,
        Pointer.ofVars (inl.passedTo a.method c callee), none⟩ := by
  have hnames := hn.names
  rw [← copies_eq_copiesAt hb, movesAt, hf] at hnames
  simp only [blockFor, hf, Option.map_some, Option.some.injEq] at hb
  subst hb
  refine ⟨rfl, fun c hc => ?_, hnames, .none⟩
  obtain ⟨pair, -, rfl⟩ := List.mem_map.1 hc
  rfl

theorem leave_denotes (hn : inl.Numbered t (.leave a callers))
    (hf : inl.entered t a callers = some (c, callee)) {id : Nat} {b : Block}
    (hb : inl.blockFor t id (.leave a callers) = some b) : b.Denotes t
      ⟨.leave callee (callers.length + 1), .call,
        Pointer.ofVars (writtenBack (receiverOf a.method c) (inl.passedTo a.method c callee)),
        none⟩ := by
  have hnames := hn.names
  rw [← copies_eq_copiesAt hb, movesAt, hf] at hnames
  simp only [blockFor, hf, Option.map_some, Option.some.injEq] at hb
  subst hb
  refine ⟨rfl, fun c hc => ?_, hnames, .none⟩
  obtain ⟨pair, -, rfl⟩ := List.mem_map.1 hc
  rfl

theorem denotes_of_mem_nodes
    (hn : ∀ p ∈ (inl.graphOf m receiver callers).places, inl.Numbered t p) {n : Node}
    (hp : (p, n) ∈ (inl.graphOf m receiver callers).nodes) {id : Nat} {b : Block}
    (hb : inl.blockFor t id p = some b) : b.Denotes t n := by
  induction m, receiver, callers using @graphOf_induction inl with
  | step m receiver callers ih =>
    rcases mem_nodes_graphOf.1 hp with halone | ⟨a, c, callee, hcall, haround⟩
    · exact alone_denotes hn halone hb
    · obtain ⟨ha, hf⟩ := mem_followedCalls.1 hcall
      obtain ⟨rfl, rfl, -⟩ := mem_activations.1 ha
      have ht := numbered_of_activation hn ha
      rw [← entered_eq_followed ht] at hf
      have hplace : ∀ p, p = .enter a callers ∨ p = .leave a callers →
          p ∈ (inl.graphOf a.method a.receiver callers).places := by
        intro p hp
        exact mem_places_graphOf.2 (.inr ⟨a, c, callee, hcall, hp.imp_right .inl⟩)
      simp only [around, List.mem_cons, Prod.mk.injEq] at haround
      rcases haround with ⟨rfl, rfl⟩ | ⟨rfl, rfl⟩ | hcallee
      · exact enter_denotes (hn _ (hplace _ (.inl rfl))) hf hb
      · exact leave_denotes (hn _ (hplace _ (.inr rfl))) hf hb
      · exact ih a c callee hcall (numbered_callee hn hcall) hcallee

end Graphs

end Inliner

end PointsTo
