import PointsTo.Proofs.Soundness.Answers

/-! All that is collected from a solution. A test point is answered if a block carries it or if it
is declared; its answer has the labels that its blocks have, and all labels if they have none.
Nothing is looked up in vain where each block has a state and each state names registered sites. -/
namespace PointsTo

namespace Answers

variable {a : Answers} {id : Int} {ls : OrderedSet Int}

theorem lookup_eq_some_iff {es : List (Int × OrderedSet Int)}
    (h : es.Pairwise (fun a b => a.1 < b.1)) : es.lookup id = some ls ↔ (id, ls) ∈ es := by
  induction es with
  | nil => simp
  | cons e es ih =>
    obtain ⟨he, hes⟩ := List.pairwise_cons.1 h
    rw [lookup_cons_eq, List.mem_cons]
    by_cases hid : id = e.1
    · rw [if_pos hid]
      constructor
      · intro hls
        exact Or.inl (Prod.ext hid (Option.some.inj hls).symm)
      · rintro (heq | hmem)
        · rw [← heq]
        · have hlt := he _ hmem
          omega
    · rw [if_neg hid, ih hes]
      constructor
      · intro hmem
        exact Or.inr hmem
      · rintro (heq | hmem)
        · rw [← heq] at hid
          exact absurd rfl hid
        · exact hmem

theorem get?_eq_some_iff : a.get? id = some ls ↔ (id, ls) ∈ a.entries :=
  lookup_eq_some_iff a.ascending

theorem eq_of_entries {b : Answers} (h : b.entries = a.entries) : b = a := by
  cases a
  cases b
  cases h
  rfl

theorem ext {b : Answers} (hids : ∀ id, (b.get? id).isSome = true ↔ (a.get? id).isSome = true)
    (hlabels : ∀ id l, l ∈ b.labels id ↔ l ∈ a.labels id) : b = a := by
  have hget : ∀ id, b.get? id = a.get? id := by
    intro id
    have hid := hids id
    have hls := hlabels id
    simp only [mem_labels] at hls
    cases ha : a.get? id with
    | none => simpa [ha] using hid
    | some ls =>
      obtain ⟨ls', hb⟩ : ∃ ls', b.get? id = some ls' := by
        rw [← Option.isSome_iff_exists, hid, ha]
        rfl
      rw [hb]
      congr 1
      apply OrderedSet.ext
      simpa [ha, hb] using hls
  have hnodup : ∀ c : Answers, c.entries.Nodup := by
    intro c
    apply c.ascending.imp
    intro x y hlt heq
    rw [heq] at hlt
    omega
  have hperm : b.entries.Perm a.entries := by
    apply (List.perm_ext_iff_of_nodup (hnodup b) (hnodup a)).2
    rintro ⟨id, ls⟩
    rw [← get?_eq_some_iff, ← get?_eq_some_iff, hget]
  apply eq_of_entries
  apply hperm.eq_of_pairwise ?_ b.ascending a.ascending
  intro x y _ _ hxy hyx
  omega

end Answers

theorem mem_declaredTests {p : Program} {h : Recognizer} {id : Int} : id ∈ p.declaredTests h ↔
    ∃ m method, p.method? m = some method ∧ method.hasBody = true ∧
      ∃ s ∈ method.stmts, s.testId? h = some id := by
  simp only [Program.declaredTests, OrderedSet.mem_ofList, List.mem_flatMap, List.mem_filter,
    List.mem_filterMap]
  constructor
  · rintro ⟨method, ⟨hmem, hbody⟩, hs⟩
    obtain ⟨m, hm⟩ := List.mem_iff_getElem?.1 hmem
    exact ⟨m, method, hm, hbody, hs⟩
  · rintro ⟨m, method, hm, hbody, hs⟩
    exact ⟨method, ⟨List.mem_of_getElem? hm, hbody⟩, hs⟩

namespace Sites

variable {s : Sites}

theorem mem_allLabels {l : Int} :
    l ∈ s.allLabels ↔ ∃ id : Nat, (s.sites[id]?).map (·.label) = some (some l) := by
  simp only [allLabels, OrderedSet.mem_ofList, List.mem_filterMap, Option.map_eq_some_iff]
  constructor
  · rintro ⟨site, hsite, hlabel⟩
    obtain ⟨id, hid⟩ := Array.mem_iff_getElem?.1 (Array.mem_toList_iff.1 hsite)
    exact ⟨id, site, hid, hlabel⟩
  · rintro ⟨id, site, hid, hlabel⟩
    exact ⟨site, Array.mem_toList_iff.2 (Array.mem_of_getElem? hid), hlabel⟩

theorem labelsOf_ok {ids : List Nat} (h : ∀ id ∈ ids, id < s.size) :
    ∃ ls, s.labelsOf ids = .ok ls := by
  obtain ⟨found, hfound⟩ : ∃ found, ids.mapM s.site = .ok found := by
    refine mapM_ok fun id hid => ?_
    exact ⟨_, orFault_eq_ok.2 (Array.getElem?_eq_getElem (h id hid))⟩
  exact ⟨_, by rw [labelsOf, hfound]; rfl⟩

end Sites

structure Solution.Covers (s : Solution) (g : Graph) (sites : Sites) : Prop where
  states : ∀ block ∈ g.blocks, block.id < s.states.size
  located : ∀ state ∈ s.states, ∀ n l, state.Holds n l → l < sites.size

variable {g : Graph} {s : Solution} {sites : Sites} {declared : OrderedSet Int} {id l : Int}
  {ls : OrderedSet Int} {c : Collected}

theorem Graph.mem_testPoints {b : Nat} {mark : TestMark} :
    (b, mark) ∈ g.testPoints ↔ ∃ block ∈ g.blocks, block.id = b ∧ block.mark = some mark := by
  rw [testPoints, List.mem_filterMap]
  constructor
  · rintro ⟨block, hblock, hmark⟩
    obtain ⟨found, hfound, heq⟩ := Option.map_eq_some_iff.1 hmark
    cases heq
    exact ⟨block, Array.mem_toList_iff.1 hblock, rfl, hfound⟩
  · rintro ⟨block, hblock, rfl, hmark⟩
    exact ⟨block, Array.mem_toList_iff.2 hblock, by rw [hmark]; rfl⟩

theorem Graph.lt_size_of_testPoint
    (hids : ∀ (b : Nat) (block : Block), g.blocks[b]? = some block → block.id = b) {b : Nat}
    {mark : TestMark} (h : (b, mark) ∈ g.testPoints) : b < g.size := by
  obtain ⟨block, hblock, rfl, -⟩ := mem_testPoints.1 h
  obtain ⟨k, hk⟩ := Array.mem_iff_getElem?.1 hblock
  rw [hids k block hk]
  exact (Array.getElem?_eq_some_iff.1 hk).1

theorem collect_ok (h : s.Covers g sites) (declared : OrderedSet Int) :
    ∃ c, collect g s sites declared = .ok c := by
  obtain ⟨marked, hmarked⟩ : ∃ marked, markedAnswers g s sites = .ok marked := by
    refine foldlM_ok ?_ ∅
    rintro ⟨b, mark⟩ hpoint answers
    obtain ⟨block, hblock, rfl, -⟩ := Graph.mem_testPoints.1 hpoint
    have hlt := h.states block hblock
    have hstate : s.stateOf block.id = .ok s.states[block.id] :=
      orFault_eq_ok.2 (Array.getElem?_eq_getElem hlt)
    obtain ⟨labels, hlabels⟩ : ∃ labels,
        sites.labelsOf (s.states[block.id].sitesOf mark.traced) = .ok labels := by
      refine Sites.labelsOf_ok fun id hid => ?_
      exact h.located _ (Array.getElem_mem hlt) _ id (Facts.mem_sitesOf.1 hid)
    exact ⟨_, by simp only [hstate, ok_bind, hlabels]; rfl⟩
  exact ⟨_, by rw [collect, hmarked]; rfl⟩

theorem FoundLabel.mem_allLabels (h : FoundLabel g s sites id l) : l ∈ sites.allLabels := by
  obtain ⟨_, _, -, -, _, -, n, -, site, hsite, hlabel⟩ := h
  exact Sites.mem_allLabels.2 ⟨n, by rw [hsite, Option.map_some, hlabel]⟩

/-- The labels that were found for each test point that is answered. -/
theorem exists_found (h : collect g s sites declared = .ok c) : ∃ found : Answers,
    (∀ id, (found.get? id).isSome = true ↔ g.Carries id ∨ id ∈ declared) ∧
    (∀ id l, l ∈ found.labels id ↔ FoundLabel g s sites id l) ∧
    c.answers = found.map (fun ls => if ls.isEmpty then sites.allLabels else ls) ∧
    c.fallbacks = found.entries.filterMap (fun e => if e.2.isEmpty then some e.1 else none) := by
  obtain ⟨marked, hmarked, heq⟩ := bind_eq_ok.1 h
  obtain rfl := pure_eq_ok.1 heq
  have hsome : ∀ id, (marked.get? id).isSome = true ↔ g.Carries id :=
    fun id => (markedAnswers_spec (l := 0) hmarked).1
  refine ⟨_, ?_, ?_, rfl, rfl⟩
  · intro id
    rw [Answers.get?_foldl_insert, ← hsome]
    simp only [List.mem_filter, ← OrderedSet.mem_def]
    cases hid : marked.get? id with
    | some ls => simp
    | none => by_cases hd : id ∈ declared <;> simp [hd]
  · intro id l
    rw [← (markedAnswers_spec hmarked).2, Answers.mem_labels, Answers.mem_labels,
      Answers.get?_foldl_insert]
    split
    · next hmem =>
      -- a test point that no block carries has no labels on either side
      have hnone : marked.get? id = none := by
        simpa using (List.mem_filter.1 hmem).2
      simp [hnone]
    · rfl

/-- A test point is answered with the labels that were found, or else with all labels. -/
theorem get?_collected (h : collect g s sites declared = .ok c) :
    c.answers.get? id = some ls ↔ (g.Carries id ∨ id ∈ declared) ∧
      (((∃ l, FoundLabel g s sites id l) ∧ ∀ l, l ∈ ls ↔ FoundLabel g s sites id l) ∨
        ((∀ l, ¬ FoundLabel g s sites id l) ∧ ls = sites.allLabels)) := by
  obtain ⟨found, hsome, hlabels, hanswers, -⟩ := exists_found h
  rw [hanswers, Answers.get?_map, ← hsome]
  cases hfound : found.get? id with
  | none => simp
  | some own =>
    have hown : ∀ l, l ∈ own ↔ FoundLabel g s sites id l := by
      intro l
      rw [← hlabels, Answers.mem_labels, hfound]
      simp
    simp only [← hown, Option.map_some, Option.some.injEq, Option.isSome_some, true_and]
    by_cases hempty : own.isEmpty = true
    · have hnone : ∀ l, l ∉ own := by
        intro l hl
        rw [OrderedSet.mem_def, List.isEmpty_iff.1 hempty] at hl
        cases hl
      rw [if_pos hempty]
      constructor
      · intro heq
        exact Or.inr ⟨hnone, heq.symm⟩
      · rintro (⟨⟨l, hl⟩, -⟩ | ⟨-, heq⟩)
        · exact absurd hl (hnone l)
        · exact heq.symm
    · have hexists : ∃ l, l ∈ own := by
        obtain ⟨l, hl⟩ := List.exists_mem_of_ne_nil own.toList fun hnil =>
          hempty (List.isEmpty_iff.2 hnil)
        exact ⟨l, hl⟩
      rw [if_neg hempty]
      constructor
      · rintro rfl
        exact Or.inl ⟨hexists, fun l => Iff.rfl⟩
      · rintro (⟨-, hsame⟩ | ⟨hnone, -⟩)
        · exact (OrderedSet.ext hsame).symm
        · obtain ⟨l, hl⟩ := hexists
          exact absurd hl (hnone l)

theorem mem_fallbacks (h : collect g s sites declared = .ok c) : id ∈ c.fallbacks ↔
    (g.Carries id ∨ id ∈ declared) ∧ ∀ l, ¬ FoundLabel g s sites id l := by
  obtain ⟨found, hsome, hlabels, -, hfallbacks⟩ := exists_found h
  rw [hfallbacks, List.mem_filterMap, ← hsome]
  simp only [← hlabels, Answers.mem_labels, not_exists, not_and]
  constructor
  · rintro ⟨⟨i, ls⟩, hmem, hi⟩
    dsimp only at hi
    split at hi
    · next hempty =>
      obtain rfl := Option.some.inj hi
      have hget := Answers.get?_eq_some_iff.2 hmem
      refine ⟨by rw [hget]; rfl, fun l ls' hls' hl => ?_⟩
      cases hget.symm.trans hls'
      rw [OrderedSet.mem_def, List.isEmpty_iff.1 hempty] at hl
      cases hl
    · cases hi
  · rintro ⟨hget, hnone⟩
    obtain ⟨ls, hls⟩ := Option.isSome_iff_exists.1 hget
    refine ⟨(id, ls), Answers.get?_eq_some_iff.1 hls, if_pos ?_⟩
    rw [OrderedSet.isEmpty, List.isEmpty_iff]
    exact List.eq_nil_iff_forall_not_mem.2 fun l hl => hnone l ls hls hl

theorem isSome_collected (h : collect g s sites declared = .ok c) :
    (c.answers.get? id).isSome = true ↔ g.Carries id ∨ id ∈ declared := by
  obtain ⟨found, hsome, -, hanswers, -⟩ := exists_found h
  rw [hanswers, Answers.get?_map, Option.isSome_map, hsome]

theorem fallbacks_ascending (h : collect g s sites declared = .ok c) :
    c.fallbacks.Pairwise (· < ·) := by
  obtain ⟨found, -, -, -, hfallbacks⟩ := exists_found h
  rw [hfallbacks]
  refine found.ascending.filterMap _ fun e e' hlt id hid id' hid' => ?_
  simp only [Option.ite_none_right_eq_some, Option.some.injEq] at hid hid'
  rw [← hid.2, ← hid'.2]
  exact hlt

/-- How test points are answered: by the union of what all blocks that carry one have found, and by
all labels where this union is empty. -/
structure Collected.Reports (c : Collected) (g : Graph) (s : Solution) (sites : Sites)
    (declared : OrderedSet Int) : Prop where
  answered : ∀ id, (c.answers.get? id).isSome = true ↔ g.Carries id ∨ id ∈ declared
  found : ∀ id ls, c.answers.get? id = some ls → (∃ l, FoundLabel g s sites id l) →
    ∀ l, l ∈ ls ↔ FoundLabel g s sites id l
  notFound : ∀ id ls, c.answers.get? id = some ls → (∀ l, ¬ FoundLabel g s sites id l) →
    ∀ l, l ∈ ls ↔ ∃ site ∈ sites.sites, site.label = some l
  fallbacks : ∀ id, id ∈ c.fallbacks ↔
    (g.Carries id ∨ id ∈ declared) ∧ ∀ l, ¬ FoundLabel g s sites id l
  ascending : c.fallbacks.Pairwise (· < ·)
  subset : ∀ id ls, c.answers.get? id = some ls → ∀ l ∈ ls, l ∈ sites.allLabels
  empty : ∀ id ls, c.answers.get? id = some ls → ls.isEmpty = true → sites.allLabels.isEmpty = true

theorem reports_of_collect (h : collect g s sites declared = .ok c) :
    c.Reports g s sites declared := by
  have hanswer : ∀ id ls, c.answers.get? id = some ls →
      ((∃ l, FoundLabel g s sites id l) ∧ ∀ l, l ∈ ls ↔ FoundLabel g s sites id l) ∨
        ((∀ l, ¬ FoundLabel g s sites id l) ∧ ls = sites.allLabels) :=
    fun id ls hls => ((get?_collected h).1 hls).2
  constructor
  case answered => exact fun id => isSome_collected h
  case found =>
    rintro id ls hls ⟨l, hl⟩
    rcases hanswer id ls hls with ⟨-, hfound⟩ | ⟨hnone, -⟩
    · exact hfound
    · exact absurd hl (hnone l)
  case notFound =>
    intro id ls hls hnone l
    rcases hanswer id ls hls with ⟨⟨l', hl'⟩, -⟩ | ⟨-, rfl⟩
    · exact absurd hl' (hnone l')
    · simp [Sites.allLabels]
  case fallbacks => exact fun id => mem_fallbacks h
  case ascending => exact fallbacks_ascending h
  case subset =>
    intro id ls hls l hl
    rcases hanswer id ls hls with ⟨-, hfound⟩ | ⟨-, rfl⟩
    · exact ((hfound l).1 hl).mem_allLabels
    · exact hl
  case empty =>
    intro id ls hls hempty
    rcases hanswer id ls hls with ⟨⟨l, hl⟩, hfound⟩ | ⟨-, rfl⟩
    · have hmem := (hfound l).2 hl
      rw [OrderedSet.mem_def, List.isEmpty_iff.1 hempty] at hmem
      cases hmem
    · exact hempty

/-- Every solution with a state for each block can be read, whatever its facts are. -/
theorem collect_reports (g : Graph) (s : Solution) (sites : Sites) (declared : OrderedSet Int)
    (h : s.Covers g sites) :
    ∃ c, collect g s sites declared = .ok c ∧ c.Reports g s sites declared := by
  obtain ⟨c, hc⟩ := collect_ok h declared
  exact ⟨c, hc, reports_of_collect hc⟩

def sharedMarks : Graph :=
  let block (id : Nat) (test : Int) : Block := ⟨id, .body 0 id id 0, [], some ⟨test, id⟩⟩
  { Graph.empty with blocks := #[block 0 7, block 1 7, block 2 8] }

def sharedSites : Sites :=
  let site (id : Nat) (label : Option Int) : Site := ⟨id, 0, id, "A", label⟩
  { Sites.empty with sites := #[site 0 (some 3), site 1 none, site 2 (some 5)] }

def sharedStates : Solution :=
  ⟨#[∅, (∅ : Facts).add 1 0, (∅ : Facts).add 2 1], 3, true⟩

theorem sharedStates_reports : sharedStates.Covers sharedMarks sharedSites ∧
    ∃ c, collect sharedMarks sharedStates sharedSites (.ofList [8, 9]) = .ok c ∧
      c.Reports sharedMarks sharedStates sharedSites (.ofList [8, 9]) ∧
      c.answers.labels 7 = [3] ∧ c.fallbacks = [8, 9] := by
  have hcovers : sharedStates.Covers sharedMarks sharedSites := by
    constructor
    case states => decide
    case located =>
      intro state hstate n l h
      have hthree : state = ∅ ∨ state = (∅ : Facts).add 1 0 ∨ state = (∅ : Facts).add 2 1 := by
        simpa [sharedStates] using hstate
      have hl : l = 0 ∨ l = 1 := by
        rcases hthree with rfl | rfl | rfl <;> simp_all
      rcases hl with rfl | rfl <;> decide
  obtain ⟨c, hc, hreports⟩ := collect_reports _ _ _ (.ofList [8, 9]) hcovers
  obtain ⟨c', hc', hvalues⟩ : ∃ c,
      collect sharedMarks sharedStates sharedSites (.ofList [8, 9]) = .ok c ∧
        c.answers.labels 7 = [3] ∧ c.fallbacks = [8, 9] := exists_ok (by decide +kernel)
  cases hc.symm.trans hc'
  exact ⟨hcovers, c, hc, hreports, hvalues⟩

end PointsTo
