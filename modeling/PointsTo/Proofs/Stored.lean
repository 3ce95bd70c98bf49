import Mathlib.Data.Finmap
import PointsTo.Proofs.Facts

/-! Facts as they are stored: a map from pointers to sets of sites. No sequence of changes leaves a
pointer with an empty set in the map, so two maps are equal exactly if they have the same facts. -/
namespace PointsTo

namespace OrderedSet

variable {α : Type} [Ord α] {s t : OrderedSet α}

theorem ne_empty_of_mem {x : α} (h : x ∈ s) : s ≠ ∅ := by
  rintro rfl
  exact not_mem_empty x h

variable [Std.LawfulEqOrd α] [Std.TransOrd α]

theorem size_lt_union : s.size < (s ∪ t).size ↔ ∃ x ∈ t, x ∉ s := by
  constructor
  · intro hlt
    by_contra hnone
    push Not at hnone
    have hle : (s ∪ t).size ≤ s.toList.length :=
      size_le_length fun x hx => (mem_union.1 hx).elim id (hnone x)
    exact absurd hlt (Nat.not_lt.2 hle)
  · rintro ⟨x, hx, hnew⟩
    refine size_lt_size (fun y hy => mem_union.2 (.inl hy)) fun heq => hnew ?_
    rw [heq]
    exact mem_union.2 (.inr hx)

theorem isEmpty_iff : s.isEmpty = true ↔ s = ∅ := by
  rw [isEmpty, List.isEmpty_iff]
  constructor
  · intro hnil
    apply ext
    simp [mem_def (s := s), hnil]
  · rintro rfl
    rfl

theorem union_ne_empty (h : t ≠ ∅) : s ∪ t ≠ ∅ := by
  intro hempty
  refine h (ext fun x => ?_)
  have hx : x ∈ s ∪ t ↔ x ∈ (∅ : OrderedSet α) := by rw [hempty]
  rw [mem_union] at hx
  exact ⟨fun hmem => hx.1 (.inr hmem), fun hmem => absurd hmem (not_mem_empty x)⟩

end OrderedSet

abbrev StoredFacts := Finmap fun _ : Nat => OrderedSet Nat

namespace StoredFacts

def sitesOf (m : StoredFacts) (p : Nat) : OrderedSet Nat := (m.lookup p).getD ∅

def Holds (m : StoredFacts) (p l : Nat) : Prop := l ∈ m.sitesOf p

def set (m : StoredFacts) (p : Nat) (sites : OrderedSet Nat) : StoredFacts :=
  if sites.isEmpty then m.erase p else m.insert p sites

def add (m : StoredFacts) (p l : Nat) : StoredFacts := m.insert p ((m.sitesOf p).insert l)

def copy (m : StoredFacts) (target source : Nat) : StoredFacts := m.set target (m.sitesOf source)

/-- Adds an entry of another map and notes whether its pointer has more sites now. The pointer gets
an entry even if there is nothing to add. -/
def mergeEntry (acc : Bool × StoredFacts) (e : Σ _ : Nat, OrderedSet Nat) : Bool × StoredFacts :=
  let merged := acc.2.sitesOf e.1 ∪ e.2
  (acc.1 || (acc.2.sitesOf e.1).size < merged.size, acc.2.insert e.1 merged)

section Lookups

variable {m : StoredFacts} {acc : Bool × StoredFacts} {e : Σ _ : Nat, OrderedSet Nat}
  {sites : OrderedSet Nat} {p q l k t s : Nat}

theorem lookup_insert :
    Finmap.lookup q (Finmap.insert p sites m) = if q = p then some sites else m.lookup q := by
  split
  next hq => rw [hq, Finmap.lookup_insert]
  next hq => exact Finmap.lookup_insert_of_ne m hq

theorem sitesOf_insert :
    sitesOf (Finmap.insert p sites m) q = if q = p then sites else m.sitesOf q := by
  rw [sitesOf, lookup_insert]
  split <;> rfl

theorem lookup_set : (m.set p sites).lookup q =
    if q = p then if sites = ∅ then none else some sites else m.lookup q := by
  rw [set]
  simp only [OrderedSet.isEmpty_iff]
  by_cases hempty : sites = ∅
  · rw [if_pos hempty, if_pos hempty]
    split
    next hq => rw [hq, Finmap.lookup_erase]
    next hq => exact Finmap.lookup_erase_ne hq
  · rw [if_neg hempty, if_neg hempty, lookup_insert]

theorem sitesOf_set : (m.set p sites).sitesOf q = if q = p then sites else m.sitesOf q := by
  rw [sitesOf, lookup_set]
  split
  · split
    next hempty => exact hempty.symm
    · rfl
  · rfl

@[simp] theorem not_holds_empty : ¬ Holds ∅ p l := OrderedSet.not_mem_empty l

@[simp] theorem holds_set :
    (m.set p sites).Holds q l ↔ if q = p then l ∈ sites else m.Holds q l := by
  rw [Holds, sitesOf_set]
  split <;> rfl

@[simp] theorem holds_add : (m.add p l).Holds q k ↔ (q = p ∧ k = l) ∨ m.Holds q k := by
  rw [Holds, add, sitesOf_insert]
  split
  next hq => rw [OrderedSet.mem_insert, hq, Holds, eq_self, true_and]
  next hq => simp [hq, Holds]

@[simp] theorem holds_copy :
    (m.copy t s).Holds q l ↔ if q = t then m.Holds s l else m.Holds q l := holds_set

@[simp] theorem holds_mergeEntry :
    (mergeEntry acc e).2.Holds q l ↔ acc.2.Holds q l ∨ (q = e.1 ∧ l ∈ e.2) := by
  rw [Holds, mergeEntry, sitesOf_insert]
  split
  next hq => rw [OrderedSet.mem_union, hq, Holds, eq_self, true_and]
  next hq => simp [hq, Holds]

theorem changed_mergeEntry : (mergeEntry acc e).1 = true ↔
    acc.1 = true ∨ ∃ l ∈ e.2, ¬ acc.2.Holds e.1 l := by
  rw [mergeEntry, Bool.or_eq_true, decide_eq_true_eq, OrderedSet.size_lt_union]
  rfl

end Lookups

/-- Entries may be taken in any order. -/
instance : RightCommutative mergeEntry where
  right_comm acc e f := by
    refine Prod.ext (Bool.eq_iff_iff.2 ?_) (Finmap.ext_lookup fun q => ?_)
    · simp only [changed_mergeEntry, holds_mergeEntry]
      -- each says that one of the two entries has a new site
      grind
    · simp only [mergeEntry, lookup_insert, sitesOf_insert]
      by_cases hpointer : e.1 = f.1
      · have hunion : acc.2.sitesOf f.1 ∪ e.2 ∪ f.2 = acc.2.sitesOf f.1 ∪ f.2 ∪ e.2 :=
          OrderedSet.ext fun x => by simp only [OrderedSet.mem_union, or_right_comm]
        simp only [hpointer, if_true, hunion]
        grind
      · rw [if_neg hpointer, if_neg (Ne.symm hpointer)]
        grind

def merge (m other : StoredFacts) : Bool × StoredFacts := other.entries.foldl mergeEntry (false, m)

section Merging

variable {m other : StoredFacts} {acc : Bool × StoredFacts}
  {entries : Multiset (Σ _ : Nat, OrderedSet Nat)} {p l : Nat}

theorem holds_foldl_mergeEntry : (entries.foldl mergeEntry acc).2.Holds p l ↔
    acc.2.Holds p l ∨ ∃ e ∈ entries, p = e.1 ∧ l ∈ e.2 := by
  induction entries using Multiset.induction_on generalizing acc with
  | empty => simp
  | cons e entries ih => simp [ih, or_assoc]

theorem changed_foldl_mergeEntry : (entries.foldl mergeEntry acc).1 = true ↔
    acc.1 = true ∨ ∃ e ∈ entries, ∃ l ∈ e.2, ¬ acc.2.Holds e.1 l := by
  induction entries using Multiset.induction_on generalizing acc with
  | empty => simp
  | cons e entries ih =>
    simp only [Multiset.foldl_cons, ih, changed_mergeEntry, holds_mergeEntry, Multiset.mem_cons]
    grind

theorem holds_iff_entry : m.Holds p l ↔ ∃ e ∈ m.entries, p = e.1 ∧ l ∈ e.2 := by
  have hentry : ∀ sites, m.lookup p = some sites ↔ ⟨p, sites⟩ ∈ m.entries :=
    fun sites => Finmap.lookup_eq_some_iff
  constructor
  · intro hl
    cases hsites : m.lookup p with
    | none =>
      rw [Holds, sitesOf, hsites] at hl
      exact absurd hl (OrderedSet.not_mem_empty l)
    | some sites =>
      rw [Holds, sitesOf, hsites] at hl
      exact ⟨⟨p, sites⟩, (hentry sites).1 hsites, rfl, hl⟩
  · rintro ⟨⟨_, sites⟩, he, rfl, hl⟩
    rw [Holds, sitesOf, (hentry sites).2 he]
    exact hl

@[simp] theorem holds_merge :
    (m.merge other).2.Holds p l ↔ m.Holds p l ∨ other.Holds p l := by
  rw [merge, holds_foldl_mergeEntry, ← holds_iff_entry]

/-- A merge tells whether the other map has a fact that was missing. -/
theorem changed_merge : (m.merge other).1 = true ↔ ∃ p l, other.Holds p l ∧ ¬ m.Holds p l := by
  simp only [merge, changed_foldl_mergeEntry, Bool.false_eq_true, false_or, holds_iff_entry]
  grind

end Merging

def Filled (m : StoredFacts) : Prop := ∀ p, m.lookup p ≠ some ∅

section Canonical

variable {m m' other : StoredFacts} {acc : Bool × StoredFacts}
  {entries : Multiset (Σ _ : Nat, OrderedSet Nat)} {sites : OrderedSet Nat} {p q l t s : Nat}

theorem filled_empty : Filled ∅ := fun _ => nofun

theorem Filled.set (h : m.Filled) : (m.set p sites).Filled := by
  intro q
  rw [lookup_set]
  split
  · split
    · nofun
    next hne => exact fun heq => hne (Option.some.inj heq)
  · exact h q

theorem Filled.add (h : m.Filled) : (m.add p l).Filled := by
  intro q
  rw [StoredFacts.add, lookup_insert]
  split
  · have hsite : l ∈ (m.sitesOf p).insert l := OrderedSet.mem_insert.2 (.inl rfl)
    exact fun heq => OrderedSet.ne_empty_of_mem hsite (Option.some.inj heq)
  · exact h q

theorem Filled.copy (h : m.Filled) : (m.copy t s).Filled := h.set

theorem Filled.foldl_mergeEntry (h : acc.2.Filled) (hentries : ∀ e ∈ entries, e.2 ≠ ∅) :
    (entries.foldl mergeEntry acc).2.Filled := by
  induction entries using Multiset.induction_on generalizing acc with
  | empty => exact h
  | cons e entries ih =>
    rw [Multiset.foldl_cons]
    refine ih (fun q => ?_) fun f hf => hentries f (Multiset.mem_cons_of_mem hf)
    rw [mergeEntry, lookup_insert]
    split
    · -- the entry, if it is new, was made for sites that are there
      exact fun heq => OrderedSet.union_ne_empty (hentries e (Multiset.mem_cons_self e entries))
        (Option.some.inj heq)
    · exact h q

theorem Filled.merge (h : m.Filled) (hother : other.Filled) : (m.merge other).2.Filled := by
  refine h.foldl_mergeEntry fun e he hempty => hother e.1 ?_
  rw [← hempty]
  exact Finmap.lookup_eq_some_iff.2 he

theorem Filled.lookup_eq (h : m.Filled) :
    m.lookup p = if m.sitesOf p = ∅ then none else some (m.sitesOf p) := by
  have hp := h p
  rw [sitesOf]
  cases hsites : m.lookup p with
  | none => exact (if_pos rfl).symm
  | some sites =>
    rw [hsites] at hp
    exact (if_neg fun hempty => hp (congrArg some hempty)).symm

theorem Filled.lookup_copy (h : m.Filled) : (m.copy t s).lookup t = m.lookup s := by
  rw [StoredFacts.copy, lookup_set, if_pos rfl, h.lookup_eq]

theorem Filled.ext (h : m.Filled) (h' : m'.Filled) (hfacts : ∀ p l, m.Holds p l ↔ m'.Holds p l) :
    m = m' := by
  refine Finmap.ext_lookup fun p => ?_
  have hsites : m.sitesOf p = m'.sitesOf p := OrderedSet.ext (hfacts p)
  rw [h.lookup_eq, h'.lookup_eq, hsites]

end Canonical

structure Represents (m : StoredFacts) (s : Facts) : Prop where
  filled : m.Filled
  holds : ∀ p l, m.Holds p l ↔ s.Holds p l

section Representation

variable {m m' : StoredFacts} {s s' : Facts} {sites : OrderedSet Nat} {p l target source : Nat}

theorem represents_empty : Represents ∅ ∅ := ⟨filled_empty, fun p l => by simp⟩

theorem Represents.set (h : m.Represents s) : (m.set p sites).Represents (s.set p sites.toList) :=
  ⟨h.filled.set, fun q l => by simp [h.holds, OrderedSet.mem_def]⟩

theorem Represents.add (h : m.Represents s) : (m.add p l).Represents (s.add p l) :=
  ⟨h.filled.add, fun q l => by simp [h.holds]⟩

theorem Represents.copy (h : m.Represents s) :
    (m.copy target source).Represents (s.copy target source) :=
  ⟨h.filled.copy, fun q l => by simp [h.holds]⟩

theorem Represents.merge (h : m.Represents s) (h' : m'.Represents s') :
    (m.merge m').2.Represents (s ∪ s') :=
  ⟨h.filled.merge h'.filled, fun q l => by simp [h.holds, h'.holds]⟩

theorem Represents.eq_iff_holds (h : m.Represents s) (h' : m'.Represents s') :
    m = m' ↔ ∀ p l, m.Holds p l ↔ m'.Holds p l := by
  constructor
  · rintro rfl p l
    rfl
  · exact h.filled.ext h'.filled

/-- Comparing what is stored is comparing the facts. -/
theorem Represents.eq_iff (h : m.Represents s) (h' : m'.Represents s') : m = m' ↔ s = s' := by
  rw [h.eq_iff_holds h']
  constructor
  · intro hfacts
    exact Facts.ext fun p l => by rw [← h.holds, ← h'.holds, hfacts]
  · rintro rfl p l
    rw [h.holds, h'.holds]

theorem Represents.changed_iff (h : m.Represents s) (h' : m'.Represents s') :
    (m.merge m').1 = true ↔ s ∪ s' ≠ s := by
  simp only [changed_merge, h.holds, h'.holds]
  constructor
  · rintro ⟨p, l, hl, hnew⟩ heq
    apply hnew
    rw [← heq]
    exact Facts.holds_union.2 (.inr hl)
  · intro hne
    by_contra hnone
    push Not at hnone
    exact hne (Facts.ext fun p l => Facts.holds_union.trans (or_iff_left_of_imp (hnone p l)))

theorem Represents.toList_sitesOf (h : m.Represents s) : (m.sitesOf p).toList = s.sitesOf p := by
  have hascending : (s.sitesOf p).Pairwise (fun a b => compare a b = .lt) :=
    (Facts.ascending_sitesOf s p).imp Nat.compare_eq_lt.2
  have hsame : m.sitesOf p = ⟨s.sitesOf p, hascending⟩ :=
    OrderedSet.ext fun l => (h.holds p l).trans Facts.mem_sitesOf.symm
  rw [hsame]

theorem Represents.lookup_eq (h : m.Represents s) : (m.lookup p).map (·.toList) = s.get? p := by
  rw [h.filled.lookup_eq, Facts.get?, ← h.toList_sitesOf]
  cases hlist : (m.sitesOf p).toList with
  | nil =>
    have hempty : m.sitesOf p = ∅ := OrderedSet.isEmpty_iff.1 (List.isEmpty_iff.2 hlist)
    rw [if_pos hempty]
    rfl
  | cons l ls =>
    have hsome : m.sitesOf p ≠ ∅ := OrderedSet.ne_empty_of_mem (hlist ▸ List.mem_cons_self)
    rw [if_neg hsome, Option.map_some, hlist]

end Representation

section Blocks

variable {g : Graph} {m seed : StoredFacts} {s t : Facts} {stored : Nat → StoredFacts}
  {facts : Nat → Facts} {b : Nat}

def transfer (g : Graph) (seed : StoredFacts) (stored : Nat → StoredFacts) (b : Nat) :
    StoredFacts :=
  (g.copiesOf b).foldl (fun m c => m.copy c.target c.source)
    ((g.predecessors b).toList.foldl (fun m q => (m.merge (stored q)).2) seed)

theorem Represents.foldl_merge (h : m.Represents s) (hstates : ∀ q, (stored q).Represents (facts q))
    (qs : List Nat) : (qs.foldl (fun m q => (m.merge (stored q)).2) m).Represents
      (qs.foldl (fun s q => s ∪ facts q) s) := by
  induction qs generalizing m s with
  | nil => exact h
  | cons q qs ih => exact ih (h.merge (hstates q))

theorem Represents.foldl_copy (h : m.Represents s) (cs : List Copy) :
    (cs.foldl (fun m c => m.copy c.target c.source) m).Represents (s.run cs) := by
  induction cs generalizing m s with
  | nil => exact h
  | cons c cs ih => exact ih h.copy

theorem Represents.transfer (hseed : seed.Represents t)
    (hstates : ∀ q, (stored q).Represents (facts q)) :
    (transfer g seed stored b).Represents (g.transfer t facts b) :=
  (hseed.foldl_merge hstates _).foldl_copy _

theorem Represents.settled_iff (hseed : seed.Represents t)
    (hstates : ∀ q, (stored q).Represents (facts q)) :
    StoredFacts.transfer g seed stored b = stored b ↔ g.transfer t facts b = facts b :=
  (hseed.transfer hstates).eq_iff (hstates b)

end Blocks

/-- Changes to a state that starts empty. A merged state has its own changes behind it. -/
inductive Changes where
  | start
  | set (before : Changes) (p : Nat) (sites : OrderedSet Nat)
  | add (before : Changes) (p l : Nat)
  | copy (before : Changes) (target source : Nat)
  | merge (before other : Changes)

namespace Changes

def stored : Changes → StoredFacts
  | start => ∅
  | set before p sites => before.stored.set p sites
  | add before p l => before.stored.add p l
  | copy before target source => before.stored.copy target source
  | merge before other => (before.stored.merge other.stored).2

def facts : Changes → Facts
  | start => ∅
  | set before p sites => before.facts.set p sites.toList
  | add before p l => before.facts.add p l
  | copy before target source => before.facts.copy target source
  | merge before other => before.facts ∪ other.facts

theorem represents (c : Changes) : c.stored.Represents c.facts := by
  induction c with
  | start => exact represents_empty
  | set before p sites ih => exact ih.set
  | add before p l ih => exact ih.add
  | copy before target source ih => exact ih.copy
  | merge before other ih ihother => exact ih.merge ihother

/-- What holds of every state that changes lead to. -/
structure Canonical (c : Changes) : Prop where
  /-- No pointer is stored with an empty set. -/
  filled : ∀ p, c.stored.lookup p ≠ some ∅
  /-- What is stored of a pointer are its facts. -/
  stores : ∀ p, (c.stored.lookup p).map (·.toList) = c.facts.get? p
  /-- Equality tells whether the facts are the same. -/
  determined : ∀ d : Changes,
    (c.stored = d.stored ↔ ∀ p l, c.stored.Holds p l ↔ d.stored.Holds p l) ∧
      (c.stored = d.stored ↔ c.facts = d.facts)
  /-- A merge gives the union. -/
  merged : ∀ (d : Changes) p l,
    (c.stored.merge d.stored).2.Holds p l ↔ c.stored.Holds p l ∨ d.stored.Holds p l
  /-- A merge tells whether the facts have grown. -/
  grown : ∀ d : Changes,
    ((c.stored.merge d.stored).1 = true ↔
      ∃ p l, (c.stored.merge d.stored).2.Holds p l ∧ ¬ c.stored.Holds p l) ∧
    ((c.stored.merge d.stored).1 = true ↔ c.facts ∪ d.facts ≠ c.facts)
  /-- A copy changes one pointer, which gets what the other one had before. -/
  copied : ∀ target source,
    (c.stored.copy target source).lookup target = c.stored.lookup source ∧
      ∀ p ≠ target, (c.stored.copy target source).lookup p = c.stored.lookup p

theorem canonical (c : Changes) : c.Canonical where
  filled := c.represents.filled
  stores p := c.represents.lookup_eq
  determined d := ⟨c.represents.eq_iff_holds d.represents, c.represents.eq_iff d.represents⟩
  merged d p l := holds_merge
  grown d := by
    refine ⟨changed_merge.trans ?_, c.represents.changed_iff d.represents⟩
    simp only [holds_merge, or_and_right, and_not_self_iff, false_or]
  copied target source := by
    refine ⟨c.represents.filled.lookup_copy, fun p hp => ?_⟩
    rw [StoredFacts.copy, lookup_set, if_neg hp]

example : ((start.add 1 7).set 1 ∅).stored = start.stored := by decide

end Changes

end StoredFacts

end PointsTo
