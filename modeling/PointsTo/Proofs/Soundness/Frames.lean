import PointsTo.Proofs.Execution

/-! Facts that agree with the frames of an execution on one object: if a local holds it, its
variable may refer to the site of the object. Instances of a method share its variables, so all
this is about frames of different methods. -/
namespace PointsTo

variable {t : PointerTable} {s seed σ : Facts} {p q r : Pointer} {n l : Nat} {o : Object}
  {copies : List Copy} {pairs : List (Pointer × Pointer)} {methods : OrderedSet MethodId}
  {f : Frame} {fs frames frames' : List Frame} {m : MethodId}

def Facts.HoldsAt (s : Facts) (t : PointerTable) (p : Pointer) (l : Nat) : Prop :=
  ∃ n, t.get? n = some p ∧ s.Holds n l

namespace Facts

theorem holdsAt_copy {c : Copy} (hc : c.Names t (p, q)) :
    (s.copy c.target c.source).HoldsAt t r l ↔
      if r = p then s.HoldsAt t q l else s.HoldsAt t r l := by
  obtain ⟨htarget, hsource⟩ := hc
  constructor
  · rintro ⟨n, hn, hholds⟩
    rw [holds_copy] at hholds
    split at hholds
    · next heq =>
      subst heq
      rw [if_pos (Option.some.inj (hn.symm.trans htarget))]
      exact ⟨c.source, hsource, hholds⟩
    · next hne =>
      have hr : r ≠ p := by
        intro heq
        exact hne (PointerTable.get?_inj (heq ▸ hn) htarget)
      rw [if_neg hr]
      exact ⟨n, hn, hholds⟩
  · intro h
    split at h
    · next heq =>
      obtain ⟨n, hn, hholds⟩ := h
      obtain rfl := PointerTable.get?_inj hn hsource
      exact ⟨c.target, heq ▸ htarget, holds_copy.2 (by rwa [if_pos rfl])⟩
    · next hne =>
      obtain ⟨n, hn, hholds⟩ := h
      have hn' : n ≠ c.target := by
        rintro rfl
        exact hne (Option.some.inj (hn.symm.trans htarget))
      exact ⟨n, hn, holds_copy.2 (by rwa [if_neg hn'])⟩

/-- After copies none of which reads what an earlier one wrote, a pointer holds what its sources
held, or what it held itself. -/
theorem holdsAt_run (hn : List.Forall₂ (Copy.Names t) copies pairs)
    (hp : pairs.Pairwise fun a b => a.1 ≠ b.2) (hsource : ∀ q, (r, q) ∈ pairs → s.HoldsAt t q l)
    (hsame : (∀ q, (r, q) ∉ pairs) → s.HoldsAt t r l) : (s.run copies).HoldsAt t r l := by
  induction hn generalizing s with
  | nil => exact hsame fun q hq => nomatch hq
  | @cons c pair copies pairs hc hrest ih =>
    obtain ⟨hfirst, hp⟩ := List.pairwise_cons.1 hp
    refine ih hp (fun q hq => ?_) fun hnot => ?_
    · have hq' := hsource q (List.mem_cons_of_mem _ hq)
      exact (holdsAt_copy hc).2 (by rwa [if_neg (Ne.symm (hfirst (r, q) hq))])
    · rw [holdsAt_copy hc]
      split
      · next heq =>
        subst heq
        exact hsource pair.2 List.mem_cons_self
      · next hne =>
        refine hsame fun q hq => ?_
        rcases List.mem_cons.1 hq with rfl | hq
        · exact hne rfl
        · exact hnot q hq

end Facts

/-- An object of an inlined method may be what the pointer refers to. -/
def Knows (t : PointerTable) (seed : Facts) (methods : OrderedSet MethodId) (σ : Facts)
    (p : Pointer) (o : Object) : Prop :=
  o.method ∈ methods ∧
    ∀ l, seed.HoldsAt t (.allocation o.method o.stmt) l → σ.HoldsAt t p l

theorem Knows.run (hn : List.Forall₂ (Copy.Names t) copies pairs)
    (hp : pairs.Pairwise fun a b => a.1 ≠ b.2)
    (hsource : ∀ q, (r, q) ∈ pairs → Knows t seed methods σ q o)
    (hsame : (∀ q, (r, q) ∉ pairs) → Knows t seed methods σ r o) :
    Knows t seed methods (σ.run copies) r o := by
  refine ⟨?_, fun l hl => ?_⟩
  · by_cases h : ∃ q, (r, q) ∈ pairs
    · obtain ⟨q, hq⟩ := h
      exact (hsource q hq).1
    · exact (hsame fun q hq => h ⟨q, hq⟩).1
  · exact Facts.holdsAt_run hn hp (fun q hq => (hsource q hq).2 l hl)
      fun hnot => (hsame hnot).2 l hl

/-- The facts know all locals that hold the object, and do not lose its allocation. -/
structure Agrees (t : PointerTable) (seed : Facts) (methods : OrderedSet MethodId) (o : Object)
    (σ : Facts) (frames : List Frame) : Prop where
  allocation : o.method ∈ methods → Knows t seed methods σ (.allocation o.method o.stmt) o
  locals : ∀ f ∈ frames, ∀ x, f.locals x = some o →
    Knows t seed methods σ (.var ⟨f.method, x⟩) o

namespace Agrees

theorem start {entry : MethodId} : Agrees t seed methods o seed [⟨entry, 0, .empty⟩] where
  allocation ho := ⟨ho, fun _ hl => hl⟩
  locals f hf x hx := by
    obtain rfl := List.mem_singleton.1 hf
    cases hx

theorem mono (h : Agrees t seed methods o σ frames)
    (hframes : ∀ f' ∈ frames', ∀ x, f'.locals x = some o →
      ∃ f ∈ frames, f.method = f'.method ∧ f.locals x = some o) :
    Agrees t seed methods o σ frames' where
  allocation := h.allocation
  locals f' hf' x hx := by
    obtain ⟨f, hf, hm, hx⟩ := hframes f' hf' x hx
    exact hm ▸ h.locals f hf x hx

/-- Copies to variables keep the agreement if each local holds what all sources of its variable
held. -/
theorem run (h : Agrees t seed methods o σ frames)
    (hn : List.Forall₂ (Copy.Names t) copies pairs)
    (hp : pairs.Pairwise fun a b => a.1 ≠ b.2) (htarget : ∀ a ∈ pairs, ∃ v, a.1 = .var v)
    (hlocals : ∀ f ∈ frames', ∀ x, f.locals x = some o →
      (∀ q, (.var ⟨f.method, x⟩, q) ∈ pairs → Knows t seed methods σ q o) ∧
        ((∀ q, (.var ⟨f.method, x⟩, q) ∉ pairs) →
          Knows t seed methods σ (.var ⟨f.method, x⟩) o)) :
    Agrees t seed methods o (σ.run copies) frames' where
  allocation ho := by
    refine Knows.run hn hp (fun q hq => ?_) fun _ => h.allocation ho
    obtain ⟨v, hv⟩ := htarget _ hq
    cases hv
  locals f hf x hx := by
    obtain ⟨hsource, hsame⟩ := hlocals f hf x hx
    exact Knows.run hn hp hsource hsame

theorem assign {c : Copy} {x : Slot} {value : Option Object} {pc : Nat}
    (h : Agrees t seed methods o σ (f :: fs)) (hfresh : f.method ∉ fs.map (·.method))
    (hc : c.Names t (.var ⟨f.method, x⟩, q))
    (hvalue : value = some o → Knows t seed methods σ q o) :
    Agrees t seed methods o (σ.run [c]) (⟨f.method, pc, f.locals.set x value⟩ :: fs) := by
  refine h.run (.cons hc .nil) (List.pairwise_singleton _ _) (fun a ha => ?_)
    fun f' hf' y hy => ?_
  · rw [List.mem_singleton.1 ha]
    exact ⟨_, rfl⟩
  · simp only [List.mem_singleton, Prod.mk.injEq, Pointer.var.injEq, Var.mk.injEq]
    rcases List.mem_cons.1 hf' with rfl | hf'
    · rcases Locals.set_eq_some.1 hy with ⟨rfl, hv⟩ | ⟨hne, hy⟩
      · constructor
        · rintro q' ⟨-, rfl⟩
          exact hvalue hv
        · intro hnot
          exact absurd ⟨⟨rfl, rfl⟩, rfl⟩ (hnot q)
      · constructor
        · rintro q' ⟨⟨-, heq⟩, -⟩
          exact absurd heq hne
        · intro _
          exact h.locals f List.mem_cons_self y hy
    · constructor
      · rintro q' ⟨⟨heq, -⟩, -⟩
        exact absurd (List.mem_map.2 ⟨f', hf', heq⟩) hfresh
      · intro _
        exact h.locals f' (List.mem_cons_of_mem _ hf') y hy

theorem pass {vars : List (Var × Var)} {ρ : Locals} {pc : Nat}
    (h : Agrees t seed methods o σ frames) (source : Frame) (hsource : source ∈ frames)
    (hne : m ≠ source.method)
    (hn : List.Forall₂ (Copy.Names t) copies (Pointer.ofVars vars))
    (hvars : ∀ a ∈ vars, a.1.method = m ∧ a.2.method = source.method)
    (hfs : ∀ f ∈ fs, f ∈ frames ∧ f.method ≠ m)
    (hρ : ∀ x, ρ x = some o →
      (∀ v, (⟨m, x⟩, v) ∈ vars → source.locals v.slot = some o) ∧
        ((∀ v, (⟨m, x⟩, v) ∉ vars) → ∃ f ∈ frames, f.method = m ∧ f.locals x = some o)) :
    Agrees t seed methods o (σ.run copies) (⟨m, pc, ρ⟩ :: fs) := by
  have hmem : ∀ v q, (.var v, q) ∈ Pointer.ofVars vars ↔ ∃ w, q = .var w ∧ (v, w) ∈ vars := by
    intro v q
    simp [Pointer.ofVars, eq_comm, and_comm]
  have hpair : (Pointer.ofVars vars).Pairwise fun a b => a.1 ≠ b.2 := by
    refine List.pairwise_map.2 (List.pairwise_of_forall_mem_list fun a ha b hb heq => hne ?_)
    rw [← (hvars a ha).1, ← (hvars b hb).2, Pointer.var.inj heq]
  refine h.run hn hpair (fun a ha => ?_) fun f hf x hx => ?_
  · obtain ⟨v, -, rfl⟩ := List.mem_map.1 ha
    exact ⟨_, rfl⟩
  · rcases List.mem_cons.1 hf with rfl | hf
    · obtain ⟨hfrom, hsame⟩ := hρ x hx
      constructor
      · intro q hq
        obtain ⟨w, rfl, hw⟩ := (hmem _ _).1 hq
        have hlocal := h.locals source hsource w.slot (hfrom w hw)
        rwa [← (hvars _ hw).2] at hlocal
      · intro hnot
        obtain ⟨old, hold, hm, hx⟩ := hsame fun v hv => hnot _ ((hmem _ _).2 ⟨v, rfl, hv⟩)
        exact hm ▸ h.locals old hold x hx
    · constructor
      · intro q hq
        obtain ⟨w, rfl, hw⟩ := (hmem _ _).1 hq
        exact absurd (hvars _ hw).1 (hfs f hf).2
      · intro _
        exact h.locals f (hfs f hf).1 x hx

end Agrees

end PointsTo
