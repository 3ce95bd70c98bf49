import Mathlib.Data.List.Nodup
import Mathlib.Data.List.Perm.Subperm
import Mathlib.Data.Nat.Find
import PointsTo.Resolver

/-! The bounded walk of the resolver finds what the unbounded walk finds. -/
namespace PointsTo

namespace Program

/-- The class after so many steps up the superclasses; none where the walk has ended. -/
def ancestor (p : Program) (owner : String) : Nat → Option String
  | 0 => some owner
  | n + 1 => (p.ancestor owner n).bind p.superclassOf

def FirstFit (p : Program) (r : MethodRef) (owner : String) (id : MethodId) : Prop :=
  (∃ m, p.methods[id]? = some m ∧ r.Fits owner m) ∧
    ∀ j < id, ∀ m, p.methods[j]? = some m → ¬ r.Fits owner m

structure FirstMatch (p : Program) (r : MethodRef) (owner : String) (n : Nat) (id : MethodId) :
    Prop where
  fits : ∃ c, p.ancestor owner n = some c ∧ p.FirstFit r c id
  none_before : ∀ k < n, ∀ c, p.ancestor owner k = some c → ∀ m ∈ p.methods, ¬ r.Fits c m

variable {p : Program} {r : MethodRef} {owner parent : String} {id : MethodId} {n steps : Nat}

theorem methodIn_eq_none :
    p.methodIn r owner = none ↔ ∀ m ∈ p.methods, ¬ r.Fits owner m := by
  simp [methodIn]

theorem methodIn_eq_some : p.methodIn r owner = some id ↔ p.FirstFit r owner id := by
  rw [methodIn, List.findIdx?_eq_some_iff_getElem]
  constructor
  · rintro ⟨hlt, hfits, hfirst⟩
    refine ⟨⟨p.methods[id], List.getElem?_eq_getElem hlt, of_decide_eq_true hfits⟩, ?_⟩
    intro j hj m hm hm'
    obtain ⟨_, rfl⟩ := List.getElem?_eq_some_iff.1 hm
    exact hfirst j hj (decide_eq_true hm')
  · rintro ⟨⟨m, hm, hfits⟩, hfirst⟩
    obtain ⟨hlt, rfl⟩ := List.getElem?_eq_some_iff.1 hm
    refine ⟨hlt, decide_eq_true hfits, fun j hj hm' => ?_⟩
    exact hfirst j hj _ (List.getElem?_eq_getElem (Nat.lt_trans hj hlt)) (of_decide_eq_true hm')

theorem ancestor_add (p : Program) (owner : String) (i k : Nat) :
    p.ancestor owner (i + k) = (p.ancestor owner i).bind (p.ancestor · k) := by
  induction k with
  | zero => simp [ancestor]
  | succ k ih =>
    rw [← Nat.add_assoc, ancestor, ih, Option.bind_assoc]
    rfl

theorem ancestor_succ_of_superclass (h : p.superclassOf owner = some parent) :
    p.ancestor owner (n + 1) = p.ancestor parent n := by
  rw [Nat.add_comm, ancestor_add]
  simp [ancestor, h]

theorem ancestor_succ_of_root (h : p.superclassOf owner = none) :
    p.ancestor owner (n + 1) = none := by
  rw [Nat.add_comm, ancestor_add]
  simp [ancestor, h]

theorem declared_of_superclass (h : p.superclassOf owner = some parent) :
    owner ∈ p.classes.map (·.name) := by
  obtain ⟨c, hc, -⟩ := Option.bind_eq_some_iff.1 h
  exact List.mem_map.2 ⟨c, List.mem_of_find?_eq_some hc, by simpa using List.find?_some hc⟩

theorem firstMatch_zero : p.FirstMatch r owner 0 id ↔ p.methodIn r owner = some id := by
  constructor
  · rintro ⟨⟨c, hc, hfits⟩, -⟩
    cases hc
    exact methodIn_eq_some.2 hfits
  · exact fun h => ⟨⟨owner, rfl, methodIn_eq_some.1 h⟩, by simp⟩

theorem firstMatch_succ (h : p.superclassOf owner = some parent) :
    p.FirstMatch r owner (n + 1) id ↔
      p.methodIn r owner = none ∧ p.FirstMatch r parent n id := by
  constructor
  · rintro ⟨hfits, hbefore⟩
    rw [ancestor_succ_of_superclass h] at hfits
    refine ⟨methodIn_eq_none.2 (hbefore 0 (Nat.succ_pos n) owner rfl), hfits, ?_⟩
    intro k hk c hc
    exact hbefore (k + 1) (Nat.succ_lt_succ hk) c ((ancestor_succ_of_superclass h).trans hc)
  · rintro ⟨hnone, hfits, hbefore⟩
    refine ⟨by rwa [ancestor_succ_of_superclass h], ?_⟩
    intro k hk c hc
    cases k with
    | zero =>
      cases hc
      exact methodIn_eq_none.1 hnone
    | succ k =>
      rw [ancestor_succ_of_superclass h] at hc
      exact hbefore k (Nat.lt_of_succ_lt_succ hk) c hc

theorem resolveFrom_eq_some :
    p.resolveFrom r steps owner = some id ↔ ∃ n < steps, p.FirstMatch r owner n id := by
  induction steps generalizing owner with
  | zero => simp [resolveFrom]
  | succ steps ih =>
    rw [resolveFrom, Option.orElse_eq_orElse, Option.orElse_eq_or, Option.or_eq_some_iff]
    constructor
    · rintro (h | ⟨hnone, h⟩)
      · exact ⟨0, Nat.succ_pos _, firstMatch_zero.2 h⟩
      · obtain ⟨parent, hp, h⟩ := Option.bind_eq_some_iff.1 h
        obtain ⟨n, hn, h⟩ := ih.1 h
        exact ⟨n + 1, Nat.succ_lt_succ hn, (firstMatch_succ hp).2 ⟨hnone, h⟩⟩
    · rintro ⟨n, hn, h⟩
      cases n with
      | zero => exact .inl (firstMatch_zero.1 h)
      | succ n =>
        cases hp : p.superclassOf owner with
        | none =>
          obtain ⟨c, hc, -⟩ := h.fits
          rw [ancestor_succ_of_root hp] at hc
          cases hc
        | some parent =>
          obtain ⟨hnone, h⟩ := (firstMatch_succ hp).1 h
          exact .inr ⟨hnone, ih.2 ⟨n, Nat.lt_of_succ_lt_succ hn, h⟩⟩

/-- Up to its first match a walk meets no class twice: from a repeated class it would have gone
the same way before. -/
theorem FirstMatch.ancestor_ne (h : p.FirstMatch r owner n id) {i j : Nat} (hij : i < j)
    (hj : j ≤ n) : p.ancestor owner i ≠ p.ancestor owner j := by
  intro heq
  obtain ⟨k, rfl⟩ := Nat.exists_eq_add_of_le hj
  obtain ⟨c, hc, ⟨m, hm, hfits⟩, -⟩ := h.fits
  have hearly : p.ancestor owner (i + k) = some c := by
    rw [ancestor_add, heq, ← ancestor_add, hc]
  exact h.none_before (i + k) (by omega) c hearly m (List.mem_of_getElem? hm) hfits

/-- Each class before the first match is declared, so their number is at most that of the declared
classes. -/
theorem FirstMatch.le_classes (h : p.FirstMatch r owner n id) : n ≤ p.classes.length := by
  have hnodup : ((List.range n).map (p.ancestor owner)).Nodup := by
    refine List.Nodup.map_on (fun i hi j hj heq => ?_) List.nodup_range
    by_contra hne
    rcases Nat.lt_or_gt_of_ne hne with hlt | hlt
    · exact h.ancestor_ne hlt (Nat.le_of_lt (List.mem_range.1 hj)) heq
    · exact h.ancestor_ne hlt (Nat.le_of_lt (List.mem_range.1 hi)) heq.symm
  have hdeclared : (List.range n).map (p.ancestor owner) ⊆ p.classes.map (some ·.name) := by
    intro a ha
    obtain ⟨i, hi, rfl⟩ := List.mem_map.1 ha
    obtain ⟨k, rfl⟩ := Nat.exists_eq_add_of_lt (List.mem_range.1 hi)
    obtain ⟨c, hc, -⟩ := h.fits
    rw [Nat.add_right_comm, ancestor_add] at hc
    obtain ⟨parent, hparent, -⟩ := Option.bind_eq_some_iff.1 hc
    obtain ⟨child, hchild, hparent⟩ := Option.bind_eq_some_iff.1 hparent
    obtain ⟨d, hd, rfl⟩ := List.mem_map.1 (declared_of_superclass hparent)
    exact hchild ▸ List.mem_map.2 ⟨d, hd, rfl⟩
  simpa using (hnodup.subperm hdeclared).length_le

/-- A class on the walk that has a fitting method leads to a first match. -/
theorem exists_firstMatch {c : String} {m : Method} (hc : p.ancestor owner n = some c)
    (hm : m ∈ p.methods) (hfits : r.Fits c m) : ∃ n id, p.FirstMatch r owner n id := by
  classical
  have hex : ∃ n c, p.ancestor owner n = some c ∧ ∃ m ∈ p.methods, r.Fits c m :=
    ⟨n, c, hc, m, hm, hfits⟩
  obtain ⟨c, hc, m, hm, hfits⟩ := Nat.find_spec hex
  cases hin : p.methodIn r c with
  | none => exact absurd hfits (methodIn_eq_none.1 hin m hm)
  | some id =>
    refine ⟨_, id, ⟨c, hc, methodIn_eq_some.1 hin⟩, fun k hk c' hc' m' hm' hfits' => ?_⟩
    exact Nat.find_min hex hk ⟨c', hc', m', hm', hfits'⟩

end Program

/-- Looking a target up finds the first fitting method of the first class that has one, among all
classes that the walk from the target's class would ever reach; a longer walk finds no more. -/
theorem hierarchy_finds_first_match (p : Program) (r : MethodRef) :
    ((Resolver.hierarchy p r).isSome ↔
      ∃ n c, p.ancestor r.owner n = some c ∧ ∃ m ∈ p.methods, r.Fits c m) ∧
    (∀ id, Resolver.hierarchy p r = some id ↔ ∃ n c, p.ancestor r.owner n = some c ∧
      p.FirstFit r c id ∧
      ∀ k < n, ∀ d, p.ancestor r.owner k = some d → ∀ m ∈ p.methods, ¬ r.Fits d m) ∧
    ∀ steps, p.classes.length < steps →
      p.resolveFrom r steps r.owner = Resolver.hierarchy p r := by
  have hsome : ∀ steps, p.classes.length < steps → ∀ id,
      p.resolveFrom r steps r.owner = some id ↔ ∃ n, p.FirstMatch r r.owner n id := by
    intro steps hsteps id
    rw [Program.resolveFrom_eq_some]
    exact ⟨fun ⟨n, _, h⟩ => ⟨n, h⟩, fun ⟨n, h⟩ => ⟨n, Nat.lt_of_le_of_lt h.le_classes hsteps, h⟩⟩
  have hbound := hsome (p.classes.length + 1) (Nat.lt_succ_self _)
  refine ⟨?_, fun id => (hbound id).trans ?_, fun steps hsteps => Option.ext fun id => ?_⟩
  · rw [Option.isSome_iff_exists]
    constructor
    · rintro ⟨id, h⟩
      obtain ⟨n, ⟨c, hc, ⟨m, hm, hfits⟩, -⟩, -⟩ := (hbound id).1 h
      exact ⟨n, c, hc, m, List.mem_of_getElem? hm, hfits⟩
    · rintro ⟨n, c, hc, m, hm, hfits⟩
      obtain ⟨n, id, h⟩ := Program.exists_firstMatch hc hm hfits
      exact ⟨id, (hbound id).2 ⟨n, h⟩⟩
  · exact ⟨fun ⟨n, ⟨c, hc, hfits⟩, hbefore⟩ => ⟨n, c, hc, hfits, hbefore⟩,
      fun ⟨n, c, hc, hfits, hbefore⟩ => ⟨n, ⟨c, hc, hfits⟩, hbefore⟩⟩
  · exact (hsome steps hsteps id).trans (hbound id).symm

-- One class fewer would lose the undeclared root above a declared class.
example :
    let m : Method := ⟨"Root", "run", "", true, false, none, [], [], []⟩
    let p : Program := ⟨[⟨"Leaf", some "Root"⟩], [m], none⟩
    Resolver.hierarchy p ⟨"Leaf", "run", ""⟩ = some 0 ∧
      p.resolveFrom ⟨"Leaf", "run", ""⟩ p.classes.length "Leaf" = none := by
  decide

end PointsTo
