/-! Finite sets kept as strictly ascending lists. Two sets with the same members are equal,
so growth of a set shows as inequality. -/
namespace PointsTo

structure OrderedSet (α : Type) [Ord α] where
  toList : List α
  ascending : toList.Pairwise (fun a b => compare a b = .lt)

namespace OrderedSet

variable {α : Type} [Ord α]

instance [DecidableEq α] : DecidableEq (OrderedSet α) := fun s t =>
  decidable_of_iff (s.toList = t.toList)
    ⟨fun h => by cases s; cases t; cases h; rfl, fun h => by rw [h]⟩

instance [Repr α] : Repr (OrderedSet α) := ⟨fun s n => reprPrec s.toList n⟩

instance : Membership α (OrderedSet α) := ⟨fun s x => x ∈ s.toList⟩

instance [DecidableEq α] (x : α) (s : OrderedSet α) : Decidable (x ∈ s) :=
  inferInstanceAs (Decidable (x ∈ s.toList))

theorem mem_def {x : α} {s : OrderedSet α} : x ∈ s ↔ x ∈ s.toList := Iff.rfl

def empty : OrderedSet α := ⟨[], .nil⟩

instance : EmptyCollection (OrderedSet α) := ⟨empty⟩

instance : Inhabited (OrderedSet α) := ⟨empty⟩

@[simp] theorem not_mem_empty (x : α) : x ∉ (∅ : OrderedSet α) := by
  simp [mem_def, EmptyCollection.emptyCollection, empty]

def isEmpty (s : OrderedSet α) : Bool := s.toList.isEmpty

def size (s : OrderedSet α) : Nat := s.toList.length

def filter (p : α → Bool) (s : OrderedSet α) : OrderedSet α :=
  ⟨s.toList.filter p, s.ascending.filter p⟩

@[simp] theorem mem_filter {p : α → Bool} {s : OrderedSet α} {x : α} :
    x ∈ s.filter p ↔ x ∈ s ∧ p x = true := by
  simp [mem_def, filter]

/-! The merge of two ascending lists, which keeps one copy of a shared element. -/

/-- Merges `x` followed by a list into another list; `rest` merges what follows `x`. -/
def mergeHead (x : α) (rest : List α → List α) : List α → List α
  | [] => x :: rest []
  | y :: ys =>
    match compare x y with
    | .lt => x :: rest (y :: ys)
    | .eq => x :: rest ys
    | .gt => y :: mergeHead x rest ys

def merge : List α → List α → List α
  | [] => id
  | x :: xs => mergeHead x (merge xs)

section Lawful

variable [Std.LawfulEqOrd α]

theorem mem_mergeHead {x a : α} {xs : List α} {rest : List α → List α}
    (h : ∀ ys, a ∈ rest ys ↔ a ∈ xs ∨ a ∈ ys) (ys : List α) :
    a ∈ mergeHead x rest ys ↔ a ∈ x :: xs ∨ a ∈ ys := by
  induction ys with
  | nil => simp [mergeHead, h]
  | cons y ys ih =>
    rw [mergeHead]
    split
    · simp [h, or_assoc]
    next he =>
      cases Std.LawfulEqOrd.eq_of_compare he
      simp only [List.mem_cons, h]
      grind
    · simp only [List.mem_cons, ih]
      grind

theorem mem_merge {a : α} (xs ys : List α) : a ∈ merge xs ys ↔ a ∈ xs ∨ a ∈ ys := by
  induction xs generalizing ys with
  | nil => simp [merge]
  | cons x xs ih => exact mem_mergeHead ih ys

variable [Std.TransOrd α]

theorem ascending_mergeHead {x : α} {xs : List α} {rest : List α → List α}
    (hx : ∀ a ∈ xs, compare x a = .lt)
    (hm : ∀ ys a, a ∈ rest ys ↔ a ∈ xs ∨ a ∈ ys)
    (hr : ∀ ys : List α, ys.Pairwise (fun a b => compare a b = .lt) →
      (rest ys).Pairwise (fun a b => compare a b = .lt))
    (ys : List α) (hy : ys.Pairwise (fun a b => compare a b = .lt)) :
    (mergeHead x rest ys).Pairwise (fun a b => compare a b = .lt) := by
  induction ys with
  | nil =>
    refine .cons (fun a ha => ?_) (hr [] .nil)
    exact hx a (by simpa using (hm [] a).1 ha)
  | cons y ys ih =>
    have hys := List.pairwise_cons.1 hy
    rw [mergeHead]
    split
    next hlt =>
      refine .cons (fun a ha => ?_) (hr _ hy)
      rcases (hm _ a).1 ha with h | h
      · exact hx a h
      · rcases List.mem_cons.1 h with rfl | h
        · exact hlt
        · exact Std.TransCmp.lt_trans hlt (hys.1 a h)
    next heq =>
      cases Std.LawfulEqOrd.eq_of_compare heq
      refine .cons (fun a ha => ?_) (hr _ hys.2)
      rcases (hm _ a).1 ha with h | h
      · exact hx a h
      · exact hys.1 a h
    next hgt =>
      have hyx : compare y x = .lt := Std.OrientedCmp.lt_of_gt hgt
      refine .cons (fun a ha => ?_) (ih hys.2)
      rcases (mem_mergeHead (fun ys => hm ys a) ys).1 ha with h | h
      · rcases List.mem_cons.1 h with rfl | h
        · exact hyx
        · exact Std.TransCmp.lt_trans hyx (hx a h)
      · exact hys.1 a h

theorem ascending_merge {xs ys : List α} (hx : xs.Pairwise (fun a b => compare a b = .lt))
    (hy : ys.Pairwise (fun a b => compare a b = .lt)) :
    (merge xs ys).Pairwise (fun a b => compare a b = .lt) := by
  induction xs generalizing ys with
  | nil => exact hy
  | cons x xs ih =>
    have h := List.pairwise_cons.1 hx
    exact ascending_mergeHead h.1 (fun ys a => mem_merge xs ys) (fun ys hys => ih h.2 hys) ys hy

def union (s t : OrderedSet α) : OrderedSet α :=
  ⟨merge s.toList t.toList, ascending_merge s.ascending t.ascending⟩

instance : Union (OrderedSet α) := ⟨union⟩

@[simp] theorem mem_union {s t : OrderedSet α} {x : α} : x ∈ s ∪ t ↔ x ∈ s ∨ x ∈ t :=
  mem_merge s.toList t.toList

omit [Std.TransOrd α] [Std.LawfulEqOrd α] in
def singleton (x : α) : OrderedSet α := ⟨[x], by simp⟩

def insert (x : α) (s : OrderedSet α) : OrderedSet α := singleton x ∪ s

@[simp] theorem mem_insert {s : OrderedSet α} {x y : α} : y ∈ s.insert x ↔ y = x ∨ y ∈ s := by
  rw [insert, mem_union]
  simp [mem_def, singleton]

def ofList (xs : List α) : OrderedSet α := xs.foldl (fun s x => s.insert x) ∅

theorem mem_foldl_insert {xs : List α} {s : OrderedSet α} {x : α} :
    x ∈ xs.foldl (fun s x => s.insert x) s ↔ x ∈ s ∨ x ∈ xs := by
  induction xs generalizing s with
  | nil => simp
  | cons y ys ih => simp only [List.foldl_cons, ih, mem_insert, List.mem_cons]; grind

@[simp] theorem mem_ofList {xs : List α} {x : α} : x ∈ ofList xs ↔ x ∈ xs := by
  simp [ofList, mem_foldl_insert]

theorem ext {s t : OrderedSet α} (h : ∀ x, x ∈ s ↔ x ∈ t) : s = t := by
  have irrefl : ∀ a : α, compare a a ≠ .lt := fun a h => by
    simp [Std.ReflCmp.compare_self] at h
  have key : ∀ xs ys : List α, xs.Pairwise (fun a b => compare a b = .lt) →
      ys.Pairwise (fun a b => compare a b = .lt) → (∀ x, x ∈ xs ↔ x ∈ ys) → xs = ys := by
    intro xs
    induction xs with
    | nil =>
      intro ys _ _ h
      cases ys with
      | nil => rfl
      | cons y ys => simpa using (h y).2 (by simp)
    | cons x xs ih =>
      intro ys hx hy h
      cases ys with
      | nil => simpa using (h x).1 (by simp)
      | cons y ys =>
        have hx' := List.pairwise_cons.1 hx
        have hy' := List.pairwise_cons.1 hy
        have hxy : x = y := by
          rcases List.mem_cons.1 ((h x).1 (by simp)) with e | m
          · exact e
          rcases List.mem_cons.1 ((h y).2 (by simp)) with e | m'
          · exact e.symm
          exact absurd (Std.TransCmp.lt_trans (hy'.1 x m) (hx'.1 y m')) (irrefl y)
        subst hxy
        congr 1
        refine ih ys hx'.2 hy'.2 fun z => ⟨fun hz => ?_, fun hz => ?_⟩
        · rcases List.mem_cons.1 ((h z).1 (List.mem_cons_of_mem _ hz)) with rfl | m
          · exact absurd (hx'.1 z hz) (irrefl z)
          · exact m
        · rcases List.mem_cons.1 ((h z).2 (List.mem_cons_of_mem _ hz)) with rfl | m
          · exact absurd (hy'.1 z hz) (irrefl z)
          · exact m
  have hl := key s.toList t.toList s.ascending t.ascending h
  cases s
  cases t
  cases hl
  rfl

theorem ofList_toList (s : OrderedSet α) : ofList s.toList = s := ext fun _ => mem_ofList

end Lawful

end OrderedSet

end PointsTo
