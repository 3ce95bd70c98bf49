import PointsTo.Collect
import PointsTo.Proofs.Fault

/-! What is read off a solution. A label that a marked block has for its test point is among the
answers. -/
namespace PointsTo

namespace Answers

variable {a : Answers} {id i : Int} {l : Int} {ls : OrderedSet Int} {ids : List Int}

theorem lookup_cons_eq (e : Int × OrderedSet Int) (es : List (Int × OrderedSet Int)) (i : Int) :
    (e :: es).lookup i = if i = e.1 then some e.2 else es.lookup i := by
  rw [List.lookup_cons]
  by_cases hi : i = e.1
  · rw [if_pos hi, beq_iff_eq.2 hi]
  · rw [if_neg hi, beq_false_of_ne hi]

theorem lookup_insertEntry (id : Int) (ls : OrderedSet Int) (es : List (Int × OrderedSet Int))
    (i : Int) : (insertEntry id ls es).lookup i = if i = id then some ls else es.lookup i := by
  induction es with
  | nil => exact lookup_cons_eq _ _ _
  | cons e es ih =>
    rw [insertEntry]
    split
    · exact lookup_cons_eq _ _ _
    · split
      · next heq =>
        rw [lookup_cons_eq, lookup_cons_eq, heq]
        by_cases hi : i = e.1 <;> simp [hi]
      · next hne =>
        rw [lookup_cons_eq, lookup_cons_eq, ih]
        by_cases hi : i = id
        · simp [hi, hne]
        · simp [hi]

theorem get?_insert : (a.insert id ls).get? i = if i = id then some ls else a.get? i :=
  lookup_insertEntry id ls a.entries i

theorem get?_map (f : OrderedSet Int → OrderedSet Int) : (a.map f).get? i = (a.get? i).map f := by
  change (a.entries.map fun e => (e.1, f e.2)).lookup i = (a.entries.lookup i).map f
  induction a.entries with
  | nil => rfl
  | cons e es ih =>
    rw [List.map_cons, List.lookup_cons, List.lookup_cons, ih]
    cases i == e.1 <;> rfl

theorem mem_labels : l ∈ a.labels id ↔ ∃ ls, a.get? id = some ls ∧ l ∈ ls := by
  rw [labels]
  cases h : a.get? id <;> simp [OrderedSet.mem_def]

theorem mem_labels_add : l ∈ (a.add id ls).labels i ↔ l ∈ a.labels i ∨ (i = id ∧ l ∈ ls) := by
  rw [mem_labels, mem_labels, add, get?_insert]
  by_cases hi : i = id
  · subst hi
    rw [if_pos rfl]
    cases h : a.get? i <;> simp
  · simp [hi]

theorem isSome_get?_add :
    ((a.add id ls).get? i).isSome = true ↔ i = id ∨ (a.get? i).isSome = true := by
  rw [add, get?_insert]
  by_cases hi : i = id <;> simp [hi]

theorem get?_foldl_insert : (ids.foldl (fun a id => a.insert id ∅) a).get? i =
    if i ∈ ids then some ∅ else a.get? i := by
  induction ids generalizing a with
  | nil => simp
  | cons id ids ih =>
    rw [List.foldl_cons, ih, get?_insert]
    by_cases hi : i ∈ ids
    · simp [hi]
    · by_cases hid : i = id <;> simp [hi, hid]

end Answers

variable {g : Graph} {s : Solution} {sites : Sites} {id l : Int} {ls : OrderedSet Int}
  {declared : OrderedSet Int}

theorem Sites.mem_labelsOf {ids : List Nat} (h : sites.labelsOf ids = .ok ls) :
    l ∈ ls ↔ ∃ id ∈ ids, ∃ site, sites.sites[id]? = some site ∧ site.label = some l := by
  obtain ⟨found, hfound, heq⟩ := bind_eq_ok.1 h
  rw [← pure_eq_ok.1 heq, OrderedSet.mem_ofList, List.mem_filterMap]
  simp only [mem_mapM hfound, Sites.site, orFault_eq_ok]
  constructor
  · rintro ⟨site, ⟨id, hid, hsite⟩, hlabel⟩
    exact ⟨id, hid, site, hsite, hlabel⟩
  · rintro ⟨id, hid, site, hsite, hlabel⟩
    exact ⟨site, ⟨id, hid, hsite⟩, hlabel⟩

def MarkedLabel (s : Solution) (sites : Sites) (b : Nat) (mark : TestMark) (l : Int) : Prop :=
  ∃ state, s.states[b]? = some state ∧ ∃ id, state.Holds mark.traced id ∧
    ∃ site, sites.sites[id]? = some site ∧ site.label = some l

def Graph.Carries (g : Graph) (id : Int) : Prop :=
  ∃ b mark, (b, mark) ∈ g.testPoints ∧ mark.testId = id

def FoundLabel (g : Graph) (s : Solution) (sites : Sites) (id l : Int) : Prop :=
  ∃ b mark, (b, mark) ∈ g.testPoints ∧ mark.testId = id ∧ MarkedLabel s sites b mark l

/-- Exactly the test points of blocks have an entry, with the labels of all their blocks. -/
theorem markedAnswers_spec {a : Answers} (h : markedAnswers g s sites = .ok a) :
    ((a.get? id).isSome = true ↔ g.Carries id) ∧
      (l ∈ a.labels id ↔ FoundLabel g s sites id l) := by
  have hfold : ∀ (points : List (Nat × TestMark)) (a a' : Answers),
      points.foldlM (fun a point => do
        let state ← s.stateOf point.1
        return a.add point.2.testId (← sites.labelsOf (state.sitesOf point.2.traced))) a = .ok a' →
      ((a'.get? id).isSome = true ↔ (a.get? id).isSome = true ∨
        ∃ b mark, (b, mark) ∈ points ∧ mark.testId = id) ∧
      (l ∈ a'.labels id ↔ l ∈ a.labels id ∨ ∃ b mark, (b, mark) ∈ points ∧ mark.testId = id ∧
        MarkedLabel s sites b mark l) := by
    intro points
    induction points with
    | nil =>
      intro a a' h
      cases h
      simp
    | cons point points ih =>
      intro a a' h
      obtain ⟨b, mark⟩ := point
      rw [List.foldlM_cons] at h
      obtain ⟨a₁, h₁, h⟩ := bind_eq_ok.1 h
      obtain ⟨state, hstate, h₁⟩ := bind_eq_ok.1 h₁
      obtain ⟨ls, hls, h₁⟩ := bind_eq_ok.1 h₁
      obtain rfl := pure_eq_ok.1 h₁
      have hpoint : l ∈ ls ↔ MarkedLabel s sites b mark l := by
        rw [Solution.stateOf, orFault_eq_ok] at hstate
        simp only [Sites.mem_labelsOf hls, Facts.mem_sitesOf, MarkedLabel, hstate,
          Option.some.injEq, exists_eq_left']
      obtain ⟨hsome, hlabels⟩ := ih _ _ h
      rw [hsome, hlabels, Answers.isSome_get?_add, Answers.mem_labels_add, hpoint]
      simp only [List.mem_cons, Prod.mk.injEq]
      constructor
      · grind
      · grind
  have hempty : ¬ ((∅ : Answers).get? id).isSome = true := by
    intro h
    cases h
  have hnone : l ∉ (∅ : Answers).labels id := List.not_mem_nil
  obtain ⟨hsome, hlabels⟩ := hfold g.testPoints ∅ a h
  exact ⟨hsome.trans (or_iff_right hempty), hlabels.trans (or_iff_right hnone)⟩

theorem mem_collected {c : Collected} (h : collect g s sites declared = .ok c) {b : Nat}
    {mark : TestMark} (hmark : (b, mark) ∈ g.testPoints) (hl : MarkedLabel s sites b mark l) :
    l ∈ c.answers.labels mark.testId := by
  obtain ⟨marked, hmarked, heq⟩ := bind_eq_ok.1 h
  rw [← pure_eq_ok.1 heq]
  have hfound := (markedAnswers_spec hmarked).2.2 ⟨b, mark, hmark, rfl, hl⟩
  obtain ⟨ls, hget, hls⟩ := Answers.mem_labels.1 hfound
  rw [Answers.mem_labels]
  refine ⟨ls, ?_, hls⟩
  rw [Answers.get?_map, Answers.get?_foldl_insert, if_neg, hget, Option.map_some, if_neg]
  · intro hempty
    rw [OrderedSet.mem_def, List.isEmpty_iff.1 hempty] at hls
    cases hls
  · intro hmem
    have hnone := (List.mem_filter.1 hmem).2
    rw [hget] at hnone
    cases hnone

end PointsTo
