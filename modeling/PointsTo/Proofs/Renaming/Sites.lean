import PointsTo.Proofs.Collected
import PointsTo.Proofs.Registry
import PointsTo.Proofs.Renaming.Inlining
import PointsTo.Proofs.Solver.Relabeling

/-! The sites of a program with renamed methods. Methods are scanned in the order of their numbers,
so a site may get another number, but its statement and its label are the same. Answers are made of
labels, so they do not show the numbers. -/
namespace PointsTo

variable {σ : Renaming} {τ : Equiv.Perm Nat}

def Program.Reordered (σ : Renaming) (p q : Program) : Prop :=
  ∀ m, q.method? (σ m) = p.method? m

theorem Program.Reordered.symm {p q : Program} (h : p.Reordered σ q) : q.Reordered σ.symm p := by
  intro m
  rw [← h, σ.apply_symm_apply]

section Positions

variable {α : Type}

def shiftPerm (τ : Equiv.Perm Nat) : Equiv.Perm Nat where
  toFun
    | 0 => 0
    | l + 1 => τ l + 1
  invFun
    | 0 => 0
    | l + 1 => τ.symm l + 1
  left_inv l := by cases l <;> simp
  right_inv l := by cases l <;> simp

theorem exists_positions {xs ys : List α} (h : xs.Perm ys) :
    ∃ τ : Equiv.Perm Nat, ∀ l : Nat, ys[τ l]? = xs[l]? := by
  induction h with
  | nil => exact ⟨.refl _, fun _ => rfl⟩
  | cons x _ ih =>
    obtain ⟨τ, hτ⟩ := ih
    refine ⟨shiftPerm τ, ?_⟩
    intro l
    cases l with
    | zero => rfl
    | succ l => exact hτ l
  | swap x y xs =>
    refine ⟨Equiv.swap 0 1, ?_⟩
    intro l
    match l with
    | 0 => rfl
    | 1 => rfl
    | l + 2 =>
      rw [Equiv.swap_apply_of_ne_of_ne (by omega) (by omega)]
      rfl
  | trans _ _ ih ih' =>
    obtain ⟨τ, hτ⟩ := ih
    obtain ⟨τ', hτ'⟩ := ih'
    refine ⟨τ.trans τ', ?_⟩
    intro l
    rw [Equiv.trans_apply, hτ', hτ]

end Positions

/-- Every order of the methods gives them such numbers. -/
theorem Program.exists_reordered {p q : Program} (h : p.methods.Perm q.methods) :
    ∃ σ : Renaming, p.Reordered σ q :=
  exists_positions h

def Allocation.rename (σ : Renaming) (al : Allocation) : Allocation :=
  { al with method := σ al.method }

theorem allocations_rename (h : Recognizer) (m : MethodId) (i : Nat) (waiting : Option Int)
    (stmts : List Stmt) : allocations h (σ m) i waiting stmts =
      (allocations h m i waiting stmts).map (Allocation.rename σ) := by
  fun_induction allocations h m i waiting stmts with
  | case1 => rfl
  | case2 i waiting lhs type ss ih =>
    rw [allocations, ih]
    rfl
  | case3 i waiting c ss label hc ih =>
    rw [allocations, hc]
    exact ih
  | case4 i waiting c ss hc ih =>
    rw [allocations]
    split
    · next label hlabel => exact absurd hlabel (hc label)
    · exact ih
  | case5 i waiting s ss hnew hcall ih =>
    rw [allocations]
    · exact ih
    · exact hnew
    · exact hcall

namespace Sites

variable {s s' : Sites} {t : PointerTable} {as bs : List Allocation}

theorem allocationsOf_rename {p q : Program} (hq : p.Reordered σ q) (h : Recognizer)
    (ms : OrderedSet MethodId) : (allocationsOf q h (renameAll σ ms).toList).Perm
      ((allocationsOf p h ms.toList).map (Allocation.rename σ)) := by
  have hordered : ∀ ms : OrderedSet MethodId, OrderedSet.ofList ms.toList = ms := by
    intro ms
    apply OrderedSet.ext
    intro m
    exact OrderedSet.mem_ofList
  have hmethod : ∀ m, allocations h (σ m) 0 none ((q.method? (σ m)).elim [] (·.stmts)) =
      (allocations h m 0 none ((p.method? m).elim [] (·.stmts))).map (Allocation.rename σ) := by
    intro m
    rw [hq m, allocations_rename]
  rw [allocationsOf, allocationsOf, hordered, hordered, List.map_flatMap]
  have hperm := (renameAll_perm (σ := σ) ms).flatMap_right fun m =>
    allocations h m 0 none ((q.method? m).elim [] (·.stmts))
  rw [List.flatMap_map] at hperm
  simpa only [hmethod] using hperm

structure Relabeled (τ : Equiv.Perm Nat) (s s' : Sites) : Prop where
  size : s'.size = s.size
  labels : ∀ l, (s'.sites[τ l]?).map (·.label) = (s.sites[l]?).map (·.label)
  generators : s'.generators = s.generators.relabel τ
  seed : s'.seed = s.seed.relabel τ

theorem Relabeled.empty : Relabeled (.refl _) empty empty := ⟨rfl, fun _ => rfl, rfl, rfl⟩

theorem Enumerates.labels (hs : s.Enumerates t as) (l : Nat) :
    (s.sites[l]?).map (·.label) = as[l]?.map (·.label) := by
  rw [← Array.getElem?_toList, hs.sites, List.getElem?_map, List.getElem?_zipIdx, Option.map_map,
    Option.map_map]
  rfl

theorem Enumerates.relabeled (hs : s.Enumerates t as) (hs' : s'.Enumerates (t.rename σ) bs)
    (hperm : bs.Perm (as.map (Allocation.rename σ))) : ∃ τ, s.Relabeled τ s' := by
  obtain ⟨τ, hτ⟩ := exists_positions hperm.symm
  have hfound : ∀ l, bs[τ l]? = as[l]?.map (Allocation.rename σ) := by
    intro l
    rw [hτ, List.getElem?_map]
  have hsource : ∀ n (al : Allocation), (t.rename σ).get? n =
      some (.allocation (σ al.method) al.stmt) ↔
        t.get? n = some (.allocation al.method al.stmt) :=
    fun n al => PointerTable.get?_rename_iff (p := .allocation al.method al.stmt)
  have htarget : ∀ n (al : Allocation), (t.rename σ).get? n = some (.var ⟨σ al.method, al.lhs⟩) ↔
      t.get? n = some (.var ⟨al.method, al.lhs⟩) :=
    fun n al => PointerTable.get?_rename_iff (p := .var ⟨al.method, al.lhs⟩)
  refine ⟨τ, ?_⟩
  constructor
  case size => rw [hs'.size, hs.size, hperm.length_eq, List.length_map]
  case labels =>
    intro l
    rw [hs'.labels, hs.labels, hfound, Option.map_map]
    rfl
  case generators =>
    apply Facts.eq_relabel
    intro n l
    rw [hs'.generators, hs.generators, hfound]
    cases as[l]? with
    | none => simp
    | some al => simp [Allocation.rename, hsource]
  case seed =>
    apply Facts.eq_relabel
    intro n l
    rw [hs'.seed, hs.seed, hfound]
    cases as[l]? with
    | none => simp
    | some al => simp [Allocation.rename, hsource, htarget]

theorem Relabeled.allLabels (h : s.Relabeled τ s') : s'.allLabels = s.allLabels := by
  apply OrderedSet.ext
  intro l
  rw [mem_allLabels, mem_allLabels]
  constructor
  · rintro ⟨id, hid⟩
    obtain ⟨id, rfl⟩ := τ.surjective id
    exact ⟨id, by rw [← h.labels, hid]⟩
  · rintro ⟨id, hid⟩
    exact ⟨τ id, by rw [h.labels, hid]⟩

end Sites

namespace Graph

variable (g : Graph)

theorem transfer_rename : (g.rename σ).transfer = g.transfer := by
  funext seed stateOf b
  rw [transfer, transfer, copiesOf_rename]
  rfl

theorem evaluate_rename : (g.rename σ).evaluate = g.evaluate := by
  funext seed b p
  unfold evaluate
  rw [transfer_rename]
  rfl

theorem step_rename : (g.rename σ).step = g.step := by
  funext seed budget p
  unfold step
  rw [evaluate_rename]

theorem iterate_rename : (g.rename σ).iterate = g.iterate := by
  funext seed budget fuel
  induction fuel with
  | zero => rfl
  | succ fuel ih =>
    funext p
    rw [iterate, iterate, step_rename, ih]

/-- The solver does not ask which methods the blocks are from. -/
theorem solve_rename : (g.rename σ).solve = g.solve := by
  funext seed budget
  unfold solve stepBound
  rw [iterate_rename, copyCount_rename, edgeCount_rename, size_rename, Progress.start,
    Progress.start, size_rename]

end Graph

section Collected

variable {g g' : Graph} {s : Solution} {sites sites' : Sites} {id l : Int}

theorem markedLabel_relabel (h : sites.Relabeled τ sites') {b : Nat} {mark : TestMark} :
    MarkedLabel (s.relabel τ) sites' b mark l ↔ MarkedLabel s sites b mark l := by
  have hlabel : ∀ sites : Sites, ∀ id : Nat, (∃ site, sites.sites[id]? = some site ∧
      site.label = some l) ↔ (sites.sites[id]?).map (·.label) = some (some l) :=
    fun sites id => Option.map_eq_some_iff.symm
  simp only [MarkedLabel, hlabel, Solution.relabel, Array.getElem?_map]
  cases s.states[b]? with
  | none => simp
  | some state =>
    simp only [Option.map_some, Option.some.injEq, exists_eq_left']
    constructor
    · rintro ⟨id, hholds, hid⟩
      obtain ⟨id, rfl⟩ := τ.surjective id
      rw [h.labels] at hid
      exact ⟨id, Facts.holds_relabel.1 hholds, hid⟩
    · rintro ⟨id, hholds, hid⟩
      exact ⟨τ id, Facts.holds_relabel.2 hholds, by rw [h.labels, hid]⟩

theorem foundLabel_relabel (hg : g'.testPoints = g.testPoints) (h : sites.Relabeled τ sites') :
    FoundLabel g' (s.relabel τ) sites' id l ↔ FoundLabel g s sites id l := by
  simp only [FoundLabel, hg, markedLabel_relabel h]

/-- The answers have labels in them, and no numbers of sites. -/
theorem collected_relabel (hg : g'.testPoints = g.testPoints) (h : sites.Relabeled τ sites')
    {declared : OrderedSet Int} {c c' : Collected} (hc : collect g s sites declared = .ok c)
    (hc' : collect g' (s.relabel τ) sites' declared = .ok c') :
    c'.answers = c.answers ∧ c'.fallbacks = c.fallbacks := by
  obtain ⟨found, hsome, hlabels, hanswers, hfallbacks⟩ := exists_found hc
  obtain ⟨found', hsome', hlabels', hanswers', hfallbacks'⟩ := exists_found hc'
  have hsame : found' = found := by
    apply Answers.ext
    · intro id
      rw [hsome, hsome', Graph.Carries, Graph.Carries, hg]
    · intro id l
      rw [hlabels, hlabels', foundLabel_relabel hg h]
  constructor
  · rw [hanswers, hanswers', hsame, h.allLabels]
  · rw [hfallbacks, hfallbacks', hsame]

end Collected

end PointsTo
