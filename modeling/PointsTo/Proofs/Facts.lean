import Mathlib.Data.List.Perm.Subperm
import PointsTo.Solver

/-! Copies seen backwards. What a pointer refers to after a list of copies is what one other
pointer referred to before, so running copies keeps inclusions and unions. -/
namespace PointsTo

namespace OrderedSet

variable {α : Type} [Ord α]

instance : HasSubset (OrderedSet α) := ⟨fun s t => ∀ x, x ∈ s → x ∈ t⟩

theorem subset_refl (s : OrderedSet α) : s ⊆ s := fun _ h => h

theorem subset_trans {s t u : OrderedSet α} (h : s ⊆ t) (k : t ⊆ u) : s ⊆ u :=
  fun x hx => k x (h x hx)

variable [Std.LawfulEqOrd α]

theorem nodup_toList (s : OrderedSet α) : s.toList.Nodup := by
  refine s.ascending.imp fun {a b} h => ?_
  rintro rfl
  simp [Std.ReflCmp.compare_self] at h

theorem size_le_length {s : OrderedSet α} {xs : List α} (h : ∀ x ∈ s, x ∈ xs) :
    s.size ≤ xs.length :=
  ((nodup_toList s).subperm h).length_le

variable [Std.TransOrd α]

theorem size_lt_size {s t : OrderedSet α} (h : s ⊆ t) (hne : s ≠ t) : s.size < t.size := by
  have hp : s.toList.Subperm t.toList := (nodup_toList s).subperm h
  refine Nat.lt_of_le_of_ne hp.length_le fun heq => hne ?_
  have hperm := hp.perm_of_length_le (Nat.le_of_eq heq.symm)
  exact ext fun x => hperm.mem_iff

end OrderedSet

def sourceOf : List Copy → Nat → Nat
  | [], p => p
  | c :: cs, p => if sourceOf cs p = c.target then c.source else sourceOf cs p

theorem sourceOf_append (as bs : List Copy) (p : Nat) :
    sourceOf (as ++ bs) p = sourceOf as (sourceOf bs p) := by
  induction as with
  | nil => rfl
  | cons a as ih => simp only [List.cons_append, sourceOf, ih]

theorem sourceOf_of_not_target {cs : List Copy} {p : Nat} (h : ∀ c ∈ cs, c.target ≠ p) :
    sourceOf cs p = p := by
  induction cs with
  | nil => rfl
  | cons c cs ih =>
    have hp := ih fun d hd => h d (List.mem_cons_of_mem c hd)
    have hc := h c List.mem_cons_self
    simp only [sourceOf, hp]
    rw [if_neg (Ne.symm hc)]

theorem sourceOf_eq_or_target (cs : List Copy) (p : Nat) :
    sourceOf cs p = p ∨ ∃ c ∈ cs, c.target = p := by
  by_cases h : ∃ c ∈ cs, c.target = p
  · exact Or.inr h
  · push Not at h
    exact Or.inl (sourceOf_of_not_target h)

namespace Facts

theorem run_append (s : Facts) (as bs : List Copy) : s.run (as ++ bs) = (s.run as).run bs :=
  List.foldl_append

theorem holds_run {s : Facts} {cs : List Copy} {p l : Nat} :
    (s.run cs).Holds p l ↔ s.Holds (sourceOf cs p) l := by
  induction cs generalizing s with
  | nil => rfl
  | cons c cs ih =>
    change ((s.copy c.target c.source).run cs).Holds p l ↔ _
    rw [ih, holds_copy, sourceOf]
    split <;> rfl

theorem ascending_sitesOf (s : Facts) (p : Nat) : (s.sitesOf p).Pairwise (· < ·) := by
  rw [sitesOf, List.pairwise_map, List.pairwise_filter]
  refine s.ascending.imp fun {x y} hlt hx hy => ?_
  have hpointer : x.pointer = y.pointer := by
    rw [of_decide_eq_true hx, of_decide_eq_true hy]
  have hcompare : compare x y = (compare x.pointer y.pointer).then (compare x.site y.site) := rfl
  have hself : compare y.pointer y.pointer = .eq := Std.ReflCmp.compare_self
  rw [hcompare, hpointer, hself] at hlt
  exact Nat.compare_eq_lt.1 hlt

theorem nodup_sitesOf (s : Facts) (p : Nat) : (s.sitesOf p).Nodup :=
  (ascending_sitesOf s p).imp Nat.ne_of_lt

theorem sitesOf_eq_singleton {s : Facts} {p id : Nat} (h : ∀ l, s.Holds p l ↔ l = id) :
    s.sitesOf p = [id] := by
  refine List.perm_singleton.1 ((List.perm_ext_iff_of_nodup (nodup_sitesOf s p) (by simp)).2 ?_)
  intro l
  rw [mem_sitesOf, h, List.mem_singleton]

theorem sourceOf_unique {cs : List Copy} {n k : Nat}
    (h : ∀ (s : Facts) l, s.Holds k l → (s.run cs).Holds n l) : sourceOf cs n = k := by
  have hk := h ((∅ : Facts).add k 0) 0 (by simp [holds_add])
  rw [holds_run, holds_add] at hk
  simpa using hk

theorem run_subset_run {s s' : Facts} (h : s ⊆ s') (cs : List Copy) : s.run cs ⊆ s'.run cs := by
  rintro ⟨p, l⟩ hp
  exact holds_run.2 (h _ (holds_run.1 hp))

theorem holds_foldl_union {s : Facts} {f : Nat → Facts} {qs : List Nat} {p l : Nat} :
    (qs.foldl (fun s q => s ∪ f q) s).Holds p l ↔
      s.Holds p l ∨ ∃ q ∈ qs, (f q).Holds p l := by
  induction qs generalizing s with
  | nil => simp
  | cons q qs ih => simp only [List.foldl_cons, ih, holds_union, List.exists_mem_cons_iff, or_assoc]

end Facts

end PointsTo
