import Mathlib.Data.List.Nodup
import PointsTo.Proofs.Facts
import PointsTo.Proofs.Fault
import PointsTo.Proofs.Numbering
import PointsTo.Proofs.Soundness.Sites

/-! The registered sites are the `new` statements of the given methods, one to one, and the seeds
tie the pointers of a statement to its own site. -/
namespace PointsTo

variable {h : Recognizer} {m : MethodId} {i : Nat} {waiting : Option Int} {stmts : List Stmt}
  {t t' : PointerTable} {s : Sites} {as bs : List Allocation} {a : Allocation} {n l : Nat}

theorem exists_cons_iff {x : Nat} {ss : List Stmt} {st wanted : Stmt} (hne : st ≠ wanted) :
    (∃ k, x = i + k ∧ (st :: ss)[k]? = some wanted) ↔
      ∃ k, x = i + 1 + k ∧ ss[k]? = some wanted := by
  constructor
  · rintro ⟨k, rfl, hk⟩
    cases k with
    | zero => exact absurd (Option.some.inj hk) hne
    | succ k => exact ⟨k, by omega, hk⟩
  · rintro ⟨k, rfl, hk⟩
    exact ⟨k + 1, by omega, hk⟩

theorem mem_allocations {x : Nat} {lhs : Slot} {type : String} :
    (∃ label, ⟨m, x, lhs, type, label⟩ ∈ allocations h m i waiting stmts) ↔
      ∃ k, x = i + k ∧ stmts[k]? = some (.new lhs type) := by
  fun_induction allocations h m i waiting stmts with
  | case1 => simp
  | case2 i waiting lhs' type' ss ih =>
    simp only [List.mem_cons, Allocation.mk.injEq, exists_or, ih]
    constructor
    · rintro (⟨label, -, rfl, rfl, rfl, -⟩ | ⟨k, rfl, hk⟩)
      · exact ⟨0, rfl, rfl⟩
      · exact ⟨k + 1, by omega, hk⟩
    · rintro ⟨k, rfl, hk⟩
      cases k with
      | zero =>
        cases hk
        exact Or.inl ⟨waiting, by simp⟩
      | succ k => exact Or.inr ⟨k, by omega, hk⟩
  | case3 i waiting c ss label hc ih => rw [ih, exists_cons_iff (by simp)]
  | case4 i waiting c ss hc ih => rw [ih, exists_cons_iff (by simp)]
  | case5 i waiting s ss hnew hcall ih => rw [ih, exists_cons_iff (hnew lhs type)]

theorem allocations_ascending : (allocations h m i waiting stmts).Pairwise (·.stmt < ·.stmt) ∧
    ∀ a ∈ allocations h m i waiting stmts, i ≤ a.stmt := by
  fun_induction allocations h m i waiting stmts with
  | case1 => exact ⟨.nil, fun a ha => absurd ha List.not_mem_nil⟩
  | case2 i waiting lhs type ss ih =>
    obtain ⟨hasc, hle⟩ := ih
    refine ⟨List.pairwise_cons.2 ⟨fun a ha => ?_, hasc⟩, fun a ha => ?_⟩
    · exact hle a ha
    · rcases List.mem_cons.1 ha with rfl | ha
      · exact Nat.le_refl _
      · exact Nat.le_of_succ_le (hle a ha)
  | case3 i waiting c ss label hc ih => exact ⟨ih.1, fun a ha => Nat.le_of_succ_le (ih.2 a ha)⟩
  | case4 i waiting c ss hc ih => exact ⟨ih.1, fun a ha => Nat.le_of_succ_le (ih.2 a ha)⟩
  | case5 i waiting s ss hnew hcall ih =>
    exact ⟨ih.1, fun a ha => Nat.le_of_succ_le (ih.2 a ha)⟩

namespace Sites

def Numbered (t : PointerTable) (a : Allocation) : Prop :=
  (∃ n, t.get? n = some (.allocation a.method a.stmt)) ∧
    ∃ n, t.get? n = some (.var ⟨a.method, a.lhs⟩)

/-- The sites are those of the allocations, in order, and the seeds tie their pointers to them. -/
structure Enumerates (s : Sites) (t : PointerTable) (as : List Allocation) : Prop where
  sites : s.sites.toList = as.zipIdx.map fun (a, id) => ⟨id, a.method, a.stmt, a.type, a.label⟩
  numbered : ∀ a ∈ as, Numbered t a
  generators : ∀ n l, s.generators.Holds n l ↔
    ∃ a, as[l]? = some a ∧ t.get? n = some (.allocation a.method a.stmt)
  seed : ∀ n l, s.seed.Holds n l ↔ ∃ a, as[l]? = some a ∧
    (t.get? n = some (.allocation a.method a.stmt) ∨ t.get? n = some (.var ⟨a.method, a.lhs⟩))

theorem numbers_register (s : Sites) (a : Allocation) :
    Numbers (fun _ => True) fun t => s.register t a := by
  have hsource := numbers_intern (.allocation a.method a.stmt)
  have htarget := numbers_intern (.var ⟨a.method, a.lhs⟩)
  exact .bind hsource fun source => .bind htarget fun target => .pure
    (⟨s.sites.push ⟨s.size, a.method, a.stmt, a.type, a.label⟩, s.generators.add source s.size,
      (s.seed.add source s.size).add target s.size⟩ : Sites)

theorem numbers_registerAll (s : Sites) (as : List Allocation) :
    Numbers (fun _ => True) fun t => registerAll s t as := by
  induction as generalizing s with
  | nil => exact .pure s
  | cons a as ih => exact .bind (numbers_register s a) fun s => ih s

theorem registerAll_of_numbered (h : ∀ a ∈ as, Numbered t a) : (registerAll s t as).2 = t := by
  induction as generalizing s with
  | nil => rfl
  | cons a as ih =>
    obtain ⟨⟨⟨n, hn⟩, k, hk⟩, has⟩ := List.forall_mem_cons.1 h
    have hregister : (s.register t a).2 = t := by
      simp only [register, PointerTable.intern_of_get? hn, PointerTable.intern_of_get? hk]
    change (registerAll (s.register t a).1 (s.register t a).2 as).2 = t
    rw [hregister]
    exact ih has

theorem Numbered.mono (hle : t ≤ t') (h : Numbered t a) : Numbered t' a := by
  obtain ⟨⟨n, hn⟩, k, hk⟩ := h
  exact ⟨⟨n, PointerTable.get?_of_le hle hn⟩, k, PointerTable.get?_of_le hle hk⟩

theorem get?_iff_of_le {p : Pointer} (hle : t ≤ t') (hp : ∃ k, t.get? k = some p) :
    t'.get? n = some p ↔ t.get? n = some p := by
  obtain ⟨k, hk⟩ := hp
  constructor
  · intro hn
    exact PointerTable.get?_inj hn (PointerTable.get?_of_le hle hk) ▸ hk
  · exact PointerTable.get?_of_le hle

theorem Enumerates.mono (hle : t ≤ t') (hs : s.Enumerates t as) : s.Enumerates t' as := by
  constructor
  case sites => exact hs.sites
  case numbered => exact fun a ha => (hs.numbered a ha).mono hle
  case generators =>
    intro n l
    rw [hs.generators]
    refine exists_congr fun a => and_congr_right fun ha => ?_
    exact (get?_iff_of_le hle (hs.numbered a (List.mem_of_getElem? ha)).1).symm
  case seed =>
    intro n l
    rw [hs.seed]
    refine exists_congr fun a => and_congr_right fun ha => ?_
    have hnumbered := hs.numbered a (List.mem_of_getElem? ha)
    rw [get?_iff_of_le hle hnumbered.1, get?_iff_of_le hle hnumbered.2]

theorem empty_enumerates (t : PointerTable) : empty.Enumerates t [] := by
  constructor
  case sites => rfl
  case numbered => exact fun a ha => nomatch ha
  case generators => simp [empty]
  case seed => simp [empty]

theorem Enumerates.size (hs : s.Enumerates t as) : s.size = as.length := by
  have := congrArg List.length hs.sites
  simpa [Sites.size] using this

theorem Enumerates.site_iff (hs : s.Enumerates t as) {id : Nat} {site : Site} :
    s.sites[id]? = some site ↔
      ∃ a, as[id]? = some a ∧ site = ⟨id, a.method, a.stmt, a.type, a.label⟩ := by
  rw [← Array.getElem?_toList, hs.sites, List.getElem?_map, List.getElem?_zipIdx, Option.map_map,
    Option.map_eq_some_iff, Nat.zero_add]
  exact exists_congr fun a => and_congr_right fun _ => eq_comm

theorem exists_getElem?_concat {α : Type} {xs : List α} {x : α} {P : α → Prop} :
    (∃ y, (xs ++ [x])[l]? = some y ∧ P y) ↔
      (∃ y, xs[l]? = some y ∧ P y) ∨ (l = xs.length ∧ P x) := by
  rcases Nat.lt_trichotomy l xs.length with hl | rfl | hl
  · rw [List.getElem?_append_left hl, or_iff_left fun h => Nat.ne_of_lt hl h.1]
  · simp
  · have hnone : (xs ++ [x])[l]? = none := by
      rw [List.getElem?_eq_none_iff, List.length_append, List.length_singleton]
      omega
    have hnone' : xs[l]? = none := List.getElem?_eq_none_iff.2 (Nat.le_of_lt hl)
    simp [hnone, hnone', Nat.ne_of_gt hl]

theorem Enumerates.register (hs : s.Enumerates t as) (a : Allocation) :
    (s.register t a).1.Enumerates (s.register t a).2 (as ++ [a]) := by
  have hsource := t.get?_intern (.allocation a.method a.stmt)
  generalize hfirst : t.intern (.allocation a.method a.stmt) = first at hsource
  have htarget := first.2.get?_intern (.var ⟨a.method, a.lhs⟩)
  have hle := first.2.le_intern (.var ⟨a.method, a.lhs⟩)
  generalize hsecond : first.2.intern (.var ⟨a.method, a.lhs⟩) = second at htarget hle
  have hregister : s.register t a = (⟨s.sites.push ⟨s.size, a.method, a.stmt, a.type, a.label⟩,
      s.generators.add first.1 s.size, (s.seed.add first.1 s.size).add second.1 s.size⟩,
      second.2) := by
    simp only [Sites.register, hfirst, hsecond]
  replace hsource := PointerTable.get?_of_le hle hsource
  have hold : s.Enumerates second.2 as := by
    refine hs.mono (PointerTable.le_trans ?_ hle)
    exact hfirst ▸ t.le_intern _
  have hsize := hs.size
  have hisSource : ∀ n, n = first.1 ↔ second.2.get? n = some (.allocation a.method a.stmt) :=
    fun n => ⟨fun hn => hn ▸ hsource, fun hn => PointerTable.get?_inj hn hsource⟩
  have hisTarget : ∀ n, n = second.1 ↔ second.2.get? n = some (.var ⟨a.method, a.lhs⟩) :=
    fun n => ⟨fun hn => hn ▸ htarget, fun hn => PointerTable.get?_inj hn htarget⟩
  rw [hregister]
  constructor
  case sites =>
    rw [Array.toList_push, hold.sites, List.zipIdx_append, List.map_append, hsize]
    simp
  case numbered =>
    intro b hb
    rcases List.mem_append.1 hb with hb | hb
    · exact hold.numbered b hb
    · obtain rfl := List.mem_singleton.1 hb
      exact ⟨⟨_, hsource⟩, _, htarget⟩
  case generators =>
    intro n l
    rw [exists_getElem?_concat, Facts.holds_add, hold.generators, hisSource, hsize]
    exact or_comm.trans (or_congr_right and_comm)
  case seed =>
    intro n l
    rw [exists_getElem?_concat, Facts.holds_add, Facts.holds_add, hold.seed, hisSource, hisTarget,
      hsize]
    constructor
    · rintro (⟨hn, rfl⟩ | ⟨hn, rfl⟩ | hb)
      · exact Or.inr ⟨rfl, Or.inr hn⟩
      · exact Or.inr ⟨rfl, Or.inl hn⟩
      · exact Or.inl hb
    · rintro (hb | ⟨rfl, hn | hn⟩)
      · exact Or.inr (Or.inr hb)
      · exact Or.inr (Or.inl ⟨hn, rfl⟩)
      · exact Or.inl ⟨hn, rfl⟩

theorem registerAll_enumerates (hs : s.Enumerates t as) (bs : List Allocation) :
    (registerAll s t bs).1.Enumerates (registerAll s t bs).2 (as ++ bs) := by
  induction bs generalizing s t as with
  | nil =>
    rw [List.append_nil]
    exact hs
  | cons b bs ih =>
    have hrest := ih (hs.register b)
    rwa [List.append_assoc, List.singleton_append] at hrest

def allocationsOf (p : Program) (h : Recognizer) (methods : List MethodId) : List Allocation :=
  (OrderedSet.ofList methods).toList.flatMap fun m =>
    allocations h m 0 none ((p.method? m).elim [] (·.stmts))

variable {p : Program} {methods : List MethodId}

theorem ofMethods_eq_registerAll {r : Sites × PointerTable}
    (hok : ofMethods p h methods t = .ok r) :
    r = registerAll empty t (allocationsOf p h methods) := by
  obtain ⟨found, hfound, heq⟩ := bind_eq_ok.1 hok
  rw [pure_eq_ok] at heq
  have hlists : ∀ (ms : List MethodId) (found : List (List Allocation)), (ms.mapM fun m => do
      return allocations h m 0 none (← p.method m).stmts) = Except.ok found →
      found = ms.map fun m => allocations h m 0 none ((p.method? m).elim [] (·.stmts)) := by
    intro ms
    induction ms with
    | nil =>
      intro found hfound
      exact (pure_eq_ok.1 hfound).symm
    | cons m ms ih =>
      intro found hfound
      rw [List.mapM_cons] at hfound
      obtain ⟨first, hfirst, hfound⟩ := bind_eq_ok.1 hfound
      obtain ⟨rest, hrest, hfound⟩ := bind_eq_ok.1 hfound
      obtain ⟨method, hm, hfirst⟩ := bind_eq_ok.1 hfirst
      rw [← pure_eq_ok.1 hfound, ← pure_eq_ok.1 hfirst, ih rest hrest, List.map_cons,
        orFault_eq_ok.1 hm]
      rfl
  rw [← heq, hlists _ _ hfound, allocationsOf, List.flatMap_def]

theorem allocationsOf_nodup (p : Program) (h : Recognizer) (methods : List MethodId) :
    ((allocationsOf p h methods).map fun a => (a.method, a.stmt)).Nodup := by
  rw [allocationsOf, List.map_flatMap, List.nodup_flatMap]
  constructor
  · intro m _
    rw [List.Nodup, List.pairwise_map]
    refine allocations_ascending.1.imp fun hlt heq => ?_
    exact Nat.ne_of_lt hlt (Prod.mk.inj heq).2
  · refine (OrderedSet.nodup_toList _).imp fun hne => ?_
    intro x hx hy
    obtain ⟨a, ha, rfl⟩ := List.mem_map.1 hx
    obtain ⟨b, hb, heq⟩ := List.mem_map.1 hy
    refine hne ?_
    rw [← method_of_mem_allocations ha, ← method_of_mem_allocations hb]
    exact (Prod.mk.inj heq).1.symm

theorem mem_allocationsOf {x : Nat} {lhs : Slot} {type : String} :
    (∃ label, ⟨m, x, lhs, type, label⟩ ∈ allocationsOf p h methods) ↔
      m ∈ methods ∧ ((p.method? m).elim [] (·.stmts))[x]? = some (.new lhs type) := by
  have hmem : (∃ label, ⟨m, x, lhs, type, label⟩ ∈ allocationsOf p h methods) ↔
      m ∈ methods ∧ ∃ label, ⟨m, x, lhs, type, label⟩ ∈
        allocations h m 0 none ((p.method? m).elim [] (·.stmts)) := by
    simp only [allocationsOf, List.mem_flatMap]
    constructor
    · rintro ⟨label, m', hm', ha⟩
      obtain rfl : m = m' := method_of_mem_allocations ha
      exact ⟨OrderedSet.mem_ofList.1 hm', label, ha⟩
    · rintro ⟨hm, label, ha⟩
      exact ⟨label, m, OrderedSet.mem_ofList.2 hm, ha⟩
  rw [hmem, mem_allocations]
  simp

end Sites

end PointsTo
