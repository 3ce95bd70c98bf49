import PointsTo.OrderedSet

/-! Points-to facts of one program point. A state is the set of its facts, so no pointer holds
an empty set and states with the same facts are equal. -/
namespace PointsTo

/-- The pointer may refer to an object of the site. -/
structure Fact where
  pointer : Nat
  site : Nat
  deriving DecidableEq, Repr

instance : Ord Fact := ⟨compareLex (compareOn Fact.pointer) (compareOn Fact.site)⟩

instance : Std.TransOrd Fact :=
  inferInstanceAs (Std.TransCmp (compareLex (compareOn Fact.pointer) (compareOn Fact.site)))

instance : Std.LawfulEqOrd Fact where
  eq_of_compare {a b} h := by
    obtain ⟨hp, hs⟩ := compareLex_eq_eq.1 h
    cases a
    cases b
    simp_all [compareOn]

abbrev Facts := OrderedSet Fact

namespace Facts

def Holds (s : Facts) (pointer site : Nat) : Prop := ⟨pointer, site⟩ ∈ s

instance (s : Facts) (pointer site : Nat) : Decidable (s.Holds pointer site) :=
  inferInstanceAs (Decidable (_ ∈ _))

/-- The sites a pointer may refer to, ascending. -/
def sitesOf (s : Facts) (pointer : Nat) : List Nat :=
  (s.toList.filter (·.pointer = pointer)).map (·.site)

def get? (s : Facts) (pointer : Nat) : Option (List Nat) :=
  match s.sitesOf pointer with
  | [] => none
  | sites => some sites

def add (s : Facts) (pointer site : Nat) : Facts := s.insert ⟨pointer, site⟩

def forget (s : Facts) (pointer : Nat) : Facts := s.filter (·.pointer ≠ pointer)

def set (s : Facts) (pointer : Nat) (sites : List Nat) : Facts :=
  s.forget pointer ∪ .ofList (sites.map (⟨pointer, ·⟩))

/-- A strong update: `target` now refers to what `source` refers to, and to nothing else. -/
def copy (s : Facts) (target source : Nat) : Facts := s.set target (s.sitesOf source)

def MayAlias (s : Facts) (a b : Nat) : Prop := ∃ site ∈ s.sitesOf a, site ∈ s.sitesOf b

instance (s : Facts) (a b : Nat) : Decidable (s.MayAlias a b) :=
  inferInstanceAs (Decidable (∃ _ ∈ _, _))

def groups (s : Facts) : List (Nat × List Nat) :=
  (s.toList.map (·.pointer)).eraseDups.map fun p => (p, s.sitesOf p)

theorem mem_sitesOf {s : Facts} {p l : Nat} : l ∈ s.sitesOf p ↔ s.Holds p l := by
  simp only [sitesOf, Holds, OrderedSet.mem_def, List.mem_map, List.mem_filter,
    decide_eq_true_eq]
  constructor
  · rintro ⟨⟨q, m⟩, ⟨hm, rfl⟩, rfl⟩
    exact hm
  · intro h
    exact ⟨⟨p, l⟩, ⟨h, rfl⟩, rfl⟩

@[simp] theorem not_holds_empty {p l : Nat} : ¬ Holds ∅ p l := OrderedSet.not_mem_empty _

@[simp] theorem holds_union {s t : Facts} {p l : Nat} :
    Holds (s ∪ t) p l ↔ s.Holds p l ∨ t.Holds p l := OrderedSet.mem_union

@[simp] theorem holds_add {s : Facts} {p q l m : Nat} :
    (s.add p l).Holds q m ↔ (q = p ∧ m = l) ∨ s.Holds q m := by
  simp [Holds, add]

@[simp] theorem holds_set {s : Facts} {p q l : Nat} {ls : List Nat} :
    (s.set p ls).Holds q l ↔ if q = p then l ∈ ls else s.Holds q l := by
  simp only [Holds, set, forget, OrderedSet.mem_union, OrderedSet.mem_filter,
    OrderedSet.mem_ofList, List.mem_map]
  split
  next h =>
    subst h
    simp
  next h =>
    have : ∀ x ∈ ls, (⟨p, x⟩ : Fact) ≠ ⟨q, l⟩ := fun x _ e => h (by cases e; rfl)
    simp only [decide_eq_true_eq, ne_eq, h, not_false_eq_true, and_true, or_iff_left_iff_imp]
    rintro ⟨x, hx, e⟩
    exact absurd e (this x hx)

@[simp] theorem holds_copy {s : Facts} {t u q l : Nat} :
    (s.copy t u).Holds q l ↔ if q = t then s.Holds u l else s.Holds q l := by
  simp [copy, mem_sitesOf]

theorem ext {s t : Facts} (h : ∀ p l, s.Holds p l ↔ t.Holds p l) : s = t :=
  OrderedSet.ext fun ⟨p, l⟩ => h p l

end Facts

end PointsTo
