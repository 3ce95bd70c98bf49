import Mathlib.Algebra.BigOperators.Fin
import Mathlib.Algebra.Order.BigOperators.Group.Finset
import PointsTo.Proofs.Graph

/-! The solver between two evaluations. The states start above what they will become, so they do
not ascend as they are. But a block that was not evaluated yet holds the seed and hands on nothing
that is not joined in anyway; from its first evaluation on, a block only gains facts. -/
namespace PointsTo

namespace Progress

theorem isQueued_setQueued {p : Progress} {b c : Nat} {v : Bool} (hb : b < p.queued.size) :
    ({ p with queued := p.queued.setIfInBounds b v } : Progress).isQueued c =
      if c = b then v else p.isQueued c := by
  simp only [isQueued, Array.getD_eq_getD_getElem?, Array.getElem?_setIfInBounds]
  by_cases h : c = b
  · subst h
    simp [hb]
  · simp [h, Ne.symm h]

/-- What queueing a list of blocks changes: those that did not wait yet join the queue once. -/
theorem enqueue_all {p : Progress} {xs : List Nat} (hxs : ∀ x ∈ xs, x < p.queued.size) :
    let p' := xs.foldl enqueue p
    p'.states = p.states ∧ p'.evaluations = p.evaluations ∧ p'.queued.size = p.queued.size ∧
      (∀ c, p'.isQueued c = true ↔ p.isQueued c = true ∨ c ∈ xs) ∧
      ∃ added : List Nat, p'.work.toList = p.work.toList ++ added ∧
        added.length ≤ xs.length ∧ (∀ c ∈ added, c ∈ xs) ∧
        ∀ c ∈ xs, p.isQueued c = false → c ∈ added := by
  induction xs generalizing p with
  | nil => exact ⟨rfl, rfl, rfl, by simp, [], by simp⟩
  | cons x xs ih =>
    have hx := hxs x List.mem_cons_self
    by_cases hq : p.isQueued x = true
    · have he : p.enqueue x = p := if_pos hq
      obtain ⟨hs, hev, hz, hm, added, hw, hlen, hsub, hnew⟩ :=
        ih fun y hy => hxs y (List.mem_cons_of_mem x hy)
      rw [List.foldl_cons, he]
      refine ⟨hs, hev, hz, fun c => ?_, added, hw, by simp; omega, ?_, ?_⟩
      · rw [hm, List.mem_cons]
        constructor
        · rintro (h | h)
          · exact Or.inl h
          · exact Or.inr (Or.inr h)
        · rintro (h | rfl | h)
          · exact Or.inl h
          · exact Or.inl hq
          · exact Or.inr h
      · intro c hc
        exact List.mem_cons_of_mem x (hsub c hc)
      · intro c hc hn
        rcases List.mem_cons.1 hc with rfl | hc
        · simp [hq] at hn
        · exact hnew c hc hn
    · have he : p.enqueue x =
          { p with work := p.work.push x, queued := p.queued.setIfInBounds x true } := if_neg hq
      have hflag : ∀ c, (p.enqueue x).isQueued c = if c = x then true else p.isQueued c := by
        intro c
        rw [he]
        exact isQueued_setQueued hx
      have hsize : (p.enqueue x).queued.size = p.queued.size := by simp [he]
      obtain ⟨hs, hev, hz, hm, added, hw, hlen, hsub, hnew⟩ :=
        ih (p := p.enqueue x) fun y hy => hsize ▸ hxs y (List.mem_cons_of_mem x hy)
      rw [List.foldl_cons]
      refine ⟨hs.trans (by rw [he]), hev.trans (by rw [he]), hz.trans hsize, fun c => ?_,
        x :: added, ?_, by simp; omega, ?_, ?_⟩
      · rw [hm, hflag, List.mem_cons]
        by_cases hc : c = x <;> simp [hc]
      · rw [hw, he]
        simp
      · intro c hc
        rcases List.mem_cons.1 hc with rfl | hc
        · exact List.mem_cons_self
        · exact List.mem_cons_of_mem x (hsub c hc)
      · intro c hc hn
        rcases List.mem_cons.1 hc with rfl | hc
        · exact List.mem_cons_self
        · by_cases hcx : c = x
          · exact hcx ▸ List.mem_cons_self
          · exact List.mem_cons_of_mem x (hnew c hc (by rw [hflag, if_neg hcx]; exact hn))

end Progress

namespace Graph

def Enters (g : Graph) (seed : Facts) (f : Nat → Facts) (b : Nat) (s : Facts) : Prop :=
  ∀ p l, s.Holds p l ↔ seed.Holds p l ∨ ∃ q ∈ g.predecessors b, (f q).Holds p l

/-- The facts after each block are those that enter it, changed by its copies in order. -/
def Solves (g : Graph) (seed : Facts) (f : Nat → Facts) : Prop :=
  ∀ b < g.size, ∃ s, g.Enters seed f b s ∧ f b = s.run (g.copiesOf b)

def IsLeastSolution (g : Graph) (seed : Facts) (f : Nat → Facts) : Prop :=
  g.Solves seed f ∧ ∀ f', g.Solves seed f' → ∀ b < g.size, f b ⊆ f' b

/-- A relation between blocks, pointers and sites with all that the seed and the predecessors of
a block hand on to it. -/
def Closed (g : Graph) (seed : Facts) (F : Nat → Nat → Nat → Prop) : Prop :=
  ∀ b < g.size, ∀ p l, (seed.Holds (sourceOf (g.copiesOf b) p) l ∨
    ∃ q ∈ g.predecessors b, F q (sourceOf (g.copiesOf b) p) l) → F b p l

theorem holds_transfer {g : Graph} {seed : Facts} {f : Nat → Facts} {b p l : Nat} :
    (g.transfer seed f b).Holds p l ↔ seed.Holds (sourceOf (g.copiesOf b) p) l ∨
      ∃ q ∈ g.predecessors b, (f q).Holds (sourceOf (g.copiesOf b) p) l := by
  rw [transfer, Facts.holds_run, Facts.holds_foldl_union]
  rfl

theorem solves_iff {g : Graph} {seed : Facts} {f : Nat → Facts} :
    g.Solves seed f ↔ ∀ b < g.size, f b = g.transfer seed f b := by
  constructor
  · intro h b hb
    obtain ⟨s, hs, he⟩ := h b hb
    refine Facts.ext fun p l => ?_
    rw [he, Facts.holds_run, holds_transfer]
    exact hs _ l
  · intro h b hb
    refine ⟨_, fun p l => ?_, h b hb⟩
    exact Facts.holds_foldl_union

theorem transfer_congr {g : Graph} {seed : Facts} {f f' : Nat → Facts} {b : Nat}
    (h : ∀ q ∈ g.predecessors b, f q = f' q) : g.transfer seed f b = g.transfer seed f' b := by
  refine Facts.ext fun p l => ?_
  rw [holds_transfer, holds_transfer]
  refine or_congr Iff.rfl (exists_congr fun q => and_congr_right fun hq => ?_)
  rw [h q hq]

/-- The seed is joined in at every block, so a predecessor may lose facts of the seed. -/
theorem transfer_mono {g : Graph} {seed : Facts} {f f' : Nat → Facts}
    (h : ∀ q p l, (f q).Holds p l → seed.Holds p l ∨ (f' q).Holds p l) (b : Nat) :
    g.transfer seed f b ⊆ g.transfer seed f' b := by
  rintro ⟨p, l⟩ hp
  refine holds_transfer.2 ?_
  rcases holds_transfer.1 hp with hs | ⟨q, hq, hs⟩
  · exact Or.inl hs
  · rcases h q _ l hs with hs | hs
    · exact Or.inl hs
    · exact Or.inr ⟨q, hq, hs⟩

theorem closed_of_solves {g : Graph} {seed : Facts} {f : Nat → Facts} (h : g.Solves seed f) :
    g.Closed seed fun b p l => (f b).Holds p l := by
  intro b hb p l hp
  rw [solves_iff.1 h b hb]
  exact holds_transfer.2 hp

/-- What an evaluation does: the block gets what its equation says, and if that is new, the
successors that do not wait are queued. -/
theorem evaluate_spec (g : Graph) (seed : Facts) (p : Progress) {b : Nat}
    (hb : b < p.states.size) (hq : b < p.queued.size)
    (hs : ∀ c ∈ g.successors b, c < p.queued.size) :
    let p' := g.evaluate seed b p
    let out := g.transfer seed p.stateOf b
    p'.states = p.states.setIfInBounds b out ∧ p'.evaluations = p.evaluations + 1 ∧
      p'.queued.size = p.queued.size ∧
      (∀ c, p'.isQueued c = true ↔
        (c ≠ b ∧ p.isQueued c = true) ∨ (out ≠ p.stateOf b ∧ c ∈ g.successors b)) ∧
      ∃ added : List Nat, p'.work.toList = p.work.toList ++ added ∧
        added.length ≤ (if out = p.stateOf b then 0 else (g.successors b).size) ∧
        (∀ c ∈ added, c ∈ g.successors b) ∧
        (out ≠ p.stateOf b → ∀ c ∈ g.successors b, c = b ∨ p.isQueued c = false → c ∈ added) := by
  intro p' out
  let p₁ : Progress :=
    { p with queued := p.queued.setIfInBounds b false, evaluations := p.evaluations + 1 }
  have hflag : ∀ c, p₁.isQueued c = if c = b then false else p.isQueued c :=
    fun c => Progress.isQueued_setQueued (p := { p with evaluations := p.evaluations + 1 }) hq
  by_cases hout : out = p.stateOf b
  · have he : p' = p₁ := if_pos hout
    have hset : p.states.setIfInBounds b out = p.states := by
      rw [hout, Progress.stateOf, Array.getD_eq_getD_getElem?, Array.getElem?_eq_getElem hb]
      rw [Option.getD_some, Array.setIfInBounds, dif_pos hb, Array.set_getElem_self]
    rw [he, hset]
    refine ⟨rfl, rfl, by simp [p₁], fun c => ?_, [], by simp [p₁], by simp, by simp, ?_⟩
    · rw [hflag]
      by_cases hc : c = b <;> simp [hc, hout]
    · intro h
      exact absurd hout h
  · let p₂ : Progress := { p₁ with states := p.states.setIfInBounds b out }
    have he : p' = (g.successors b).toList.foldl Progress.enqueue p₂ := if_neg hout
    have hin : ∀ c ∈ (g.successors b).toList, c < p₂.queued.size := by
      intro c hc
      simpa [p₂, p₁] using hs c hc
    obtain ⟨hstates, hev, hsize, hm, added, hw, hlen, hsub, hnew⟩ := Progress.enqueue_all hin
    rw [he]
    refine ⟨hstates, hev, by rw [hsize]; simp [p₂, p₁], fun c => ?_, added, hw, ?_, hsub, ?_⟩
    · rw [hm]
      change p₁.isQueued c = true ∨ _ ↔ _
      rw [hflag, OrderedSet.mem_def]
      by_cases hc : c = b <;> simp [hc, hout]
    · rw [if_neg hout]
      exact hlen
    · intro _ c hc hn
      refine hnew c hc ?_
      change p₁.isQueued c = false
      rw [hflag]
      rcases hn with rfl | hn
      · simp
      · simp [hn]

end Graph

namespace Progress

theorem stateOf_eq {p p' : Progress} {b : Nat} {out : Facts} (hb : b < p.states.size)
    (h : p'.states = p.states.setIfInBounds b out) :
    p'.stateOf = Function.update p.stateOf b out := by
  funext c
  simp only [stateOf, h, Array.getD_eq_getD_getElem?, Array.getElem?_setIfInBounds,
    Function.update_apply]
  by_cases hc : c = b
  · simp [hc, hb]
  · simp [hc, Ne.symm hc]

/-- How the states stand to their equations when the blocks in `done` were evaluated. -/
structure Invariant (g : Graph) (seed : Facts) (done : Finset Nat) (p : Progress) : Prop where
  states_size : p.states.size = g.size
  queued_size : p.queued.size = g.size
  work_inside : ∀ b ∈ p.work.toList, b < g.size
  waiting : ∀ b, p.isQueued b = true → b ∈ p.work.toList
  fresh : ∀ b < g.size, b ∉ done → p.stateOf b = seed
  ascending : ∀ b ∈ done, p.stateOf b ⊆ g.transfer seed p.stateOf b
  settled : ∀ b < g.size, p.isQueued b = false →
    b ∈ done ∧ p.stateOf b = g.transfer seed p.stateOf b
  least : ∀ F, g.Closed seed F → ∀ b ∈ done, ∀ q l, (p.stateOf b).Holds q l → F b q l

theorem start_invariant (g : Graph) (seed : Facts) : Invariant g seed ∅ (start g seed) := by
  have hqueued : ∀ b < g.size, (start g seed).isQueued b = true := by
    intro b hb
    simp [isQueued, start, Array.getD_eq_getD_getElem?, hb]
  constructor
  · simp [start]
  · simp [start]
  · simp [start]
  · intro b hb
    by_contra hn
    simp only [start, Worklist.toList_ofList, List.mem_range] at hn
    simp [isQueued, start, Array.getD_eq_getD_getElem?, hn] at hb
  · intro b hb _
    simp [stateOf, start, Array.getD_eq_getD_getElem?, hb]
  · simp
  · intro b hb hn
    simp [hqueued b hb] at hn
  · simp

section Step

variable {g : Graph} {seed : Facts} {done : Finset Nat} {p : Progress} {b : Nat} {w : Worklist}

/-- Overwriting the state of a block with what its equation says takes no fact from its
successors that the seed does not give back. -/
theorem Invariant.transfer_grows (h : Invariant g seed done p) (hb : b < g.size) (c : Nat) :
    g.transfer seed p.stateOf c ⊆
      g.transfer seed (Function.update p.stateOf b (g.transfer seed p.stateOf b)) c := by
  refine Graph.transfer_mono (fun q x l hq => ?_) c
  rw [Function.update_apply]
  split
  · next hqb =>
    subst hqb
    by_cases hd : q ∈ done
    · exact Or.inr (h.ascending q hd ⟨x, l⟩ hq)
    · rw [h.fresh q hb hd] at hq
      exact Or.inl hq
  · exact Or.inr hq

/-- One step of the solver: block `b` was taken from the queue, which leaves `w`, and the blocks in
`added` were woken. -/
structure Stepped (g : Graph) (seed : Facts) (p : Progress) (b : Nat) (w : Worklist)
    (added : List Nat) (p' : Progress) : Prop where
  states : p'.stateOf = Function.update p.stateOf b (g.transfer seed p.stateOf b)
  states_size : p'.states.size = p.states.size
  queued_size : p'.queued.size = p.queued.size
  queued : ∀ c, p'.isQueued c = true ↔ (c ≠ b ∧ p.isQueued c = true) ∨
    (g.transfer seed p.stateOf b ≠ p.stateOf b ∧ c ∈ g.successors b)
  work : p'.work.toList = w.toList ++ added
  added_length : added.length ≤
    if g.transfer seed p.stateOf b = p.stateOf b then 0 else (g.successors b).size
  added_inside : ∀ c ∈ added, c ∈ g.successors b
  woken : g.transfer seed p.stateOf b ≠ p.stateOf b → ∀ c ∈ g.successors b,
    c = b ∨ p.isQueued c = false → c ∈ added

theorem Invariant.stepped (hg : g.WellFormed) (h : Invariant g seed done p)
    (hpop : p.work.toList = b :: w.toList) :
    ∃ added, Stepped g seed p b w added (g.evaluate seed b { p with work := w }) := by
  have hb : b < g.size := h.work_inside b (by simp [hpop])
  have hstates : b < p.states.size := h.states_size ▸ hb
  obtain ⟨hset, -, hqsize, hflag, added, hwork, hlen, hsub, hnew⟩ :=
    Graph.evaluate_spec g seed { p with work := w } hstates
      (h.queued_size ▸ hb) (fun c hc => h.queued_size ▸ (hg.edge_inside b c hc).2)
  exact ⟨added, stateOf_eq hstates hset, by rw [hset, Array.size_setIfInBounds], hqsize, hflag,
    hwork, hlen, hsub, hnew⟩

variable {added : List Nat} {p' : Progress}

theorem Stepped.waiting (hstep : Stepped g seed p b w added p') (h : Invariant g seed done p)
    (hpop : p.work.toList = b :: w.toList) {c : Nat} (hc : p'.isQueued c = true) :
    c ∈ p'.work.toList := by
  rw [hstep.work, List.mem_append]
  rcases (hstep.queued c).1 hc with ⟨hne, hq⟩ | ⟨hchanged, hc⟩
  · have hmem := h.waiting c hq
    rw [hpop] at hmem
    exact Or.inl ((List.mem_cons.1 hmem).resolve_left hne)
  · by_cases hcb : c = b
    · exact Or.inr (hstep.woken hchanged c hc (Or.inl hcb))
    · cases hq : p.isQueued c with
      | false => exact Or.inr (hstep.woken hchanged c hc (Or.inr hq))
      | true =>
        have hmem := h.waiting c hq
        rw [hpop] at hmem
        exact Or.inl ((List.mem_cons.1 hmem).resolve_left hcb)

theorem Stepped.ascending (hstep : Stepped g seed p b w added p') (h : Invariant g seed done p)
    (hb : b < g.size) {c : Nat} (hc : c ∈ insert b done) :
    p'.stateOf c ⊆ g.transfer seed p'.stateOf c := by
  have hgrow := h.transfer_grows hb
  rw [hstep.states]
  by_cases hcb : c = b
  · subst hcb
    rw [Function.update_self]
    exact hgrow c
  · rw [Function.update_of_ne hcb]
    have hd := (Finset.mem_insert.1 hc).resolve_left hcb
    exact OrderedSet.subset_trans (h.ascending c hd) (hgrow c)

theorem Stepped.settled (hg : g.WellFormed) (hstep : Stepped g seed p b w added p')
    (h : Invariant g seed done p) {c : Nat} (hc : c < g.size) (hq : p'.isQueued c = false) :
    c ∈ insert b done ∧ p'.stateOf c = g.transfer seed p'.stateOf c := by
  have hq' := mt (hstep.queued c).2 (by simp [hq])
  rw [not_or] at hq'
  -- the equation of a block that was not woken reads no changed state
  have hsame : g.transfer seed (Function.update p.stateOf b (g.transfer seed p.stateOf b)) c =
      g.transfer seed p.stateOf c := by
    refine Graph.transfer_congr fun q hqc => ?_
    by_cases hqb : q = b
    · subst hqb
      rw [Function.update_self]
      by_contra hne
      exact hq'.2 ⟨hne, (hg.transpose q c).1 hqc⟩
    · rw [Function.update_of_ne hqb]
  rw [hstep.states, hsame]
  by_cases hcb : c = b
  · subst hcb
    exact ⟨Finset.mem_insert_self c done, by rw [Function.update_self]⟩
  · have hqc : p.isQueued c = false := by
      by_contra hn
      exact hq'.1 ⟨hcb, by simpa using hn⟩
    obtain ⟨hd, he⟩ := h.settled c hc hqc
    exact ⟨Finset.mem_insert_of_mem hd, by rw [Function.update_of_ne hcb]; exact he⟩

theorem Stepped.least (hg : g.WellFormed) (hstep : Stepped g seed p b w added p')
    (h : Invariant g seed done p) (hb : b < g.size) {F : Nat → Nat → Nat → Prop}
    (hF : g.Closed seed F) {c x l : Nat} (hc : c ∈ insert b done)
    (hx : (p'.stateOf c).Holds x l) : F c x l := by
  rw [hstep.states] at hx
  by_cases hcb : c = b
  · subst hcb
    rw [Function.update_self] at hx
    refine hF c hb x l ?_
    rcases Graph.holds_transfer.1 hx with hs | ⟨q, hq, hs⟩
    · exact Or.inl hs
    · by_cases hd : q ∈ done
      · exact Or.inr ⟨q, hq, h.least F hF q hd _ l hs⟩
      · have hqlt := (hg.edge_inside q c ((hg.transpose q c).1 hq)).1
        rw [h.fresh q hqlt hd] at hs
        exact Or.inl hs
  · rw [Function.update_of_ne hcb] at hx
    exact h.least F hF c ((Finset.mem_insert.1 hc).resolve_left hcb) x l hx

theorem Stepped.invariant (hg : g.WellFormed) (hstep : Stepped g seed p b w added p')
    (h : Invariant g seed done p) (hpop : p.work.toList = b :: w.toList) :
    Invariant g seed (insert b done) p' := by
  have hb : b < g.size := h.work_inside b (by simp [hpop])
  constructor
  · rw [hstep.states_size]
    exact h.states_size
  · rw [hstep.queued_size]
    exact h.queued_size
  · intro c hc
    rw [hstep.work] at hc
    rcases List.mem_append.1 hc with hc | hc
    · exact h.work_inside c (by rw [hpop]; exact List.mem_cons_of_mem b hc)
    · exact (hg.edge_inside b c (hstep.added_inside c hc)).2
  · intro c hc
    exact hstep.waiting h hpop hc
  · intro c hc hd
    rw [Finset.mem_insert, not_or] at hd
    rw [hstep.states, Function.update_of_ne hd.1]
    exact h.fresh c hc hd.2
  · intro c hc
    exact hstep.ascending h hb hc
  · intro c hc hq
    exact hstep.settled hg h hc hq
  · intro F hF c hc x l hx
    exact hstep.least hg h hb hF hc hx

theorem step_preserves_invariant (hg : g.WellFormed) (h : Invariant g seed done p)
    (hpop : p.work.toList = b :: w.toList) :
    Invariant g seed (insert b done) (g.evaluate seed b { p with work := w }) := by
  obtain ⟨added, hstep⟩ := h.stepped hg hpop
  exact hstep.invariant hg h hpop

end Step

end Progress

end PointsTo
