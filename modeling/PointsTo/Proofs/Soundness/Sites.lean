import PointsTo.Proofs.Fault
import PointsTo.Proofs.Soundness.Frames
import PointsTo.Sites

/-! The registered sites. Registering keeps the sites and facts that are there, and gives every
allocation a site with its label. -/
namespace PointsTo

variable {h : Recognizer} {m : MethodId} {i : Nat} {waiting : Option Int} {stmts : List Stmt}
  {t t' : PointerTable} {s s' u : Sites} {as : List Allocation} {a : Allocation} {p : Pointer}
  {l : Nat}

theorem method_of_mem_allocations (ha : a ∈ allocations h m i waiting stmts) : a.method = m := by
  fun_induction allocations h m i waiting stmts with
  | case1 => cases ha
  | case2 i waiting lhs type ss ih =>
    rcases List.mem_cons.1 ha with rfl | ha
    · rfl
    · exact ih ha
  | case3 i waiting c ss label hc ih => exact ih ha
  | case4 i waiting c ss hc ih => exact ih ha
  | case5 i waiting s ss hnew hcall ih => exact ih ha

theorem Facts.HoldsAt.mono {σ τ : Facts} (hst : σ ⊆ τ) (hle : t ≤ t') (hh : σ.HoldsAt t p l) :
    τ.HoldsAt t' p l := by
  obtain ⟨n, hn, hholds⟩ := hh
  exact ⟨n, PointerTable.get?_of_le hle hn, hst _ hholds⟩

namespace Sites

structure Extends (s s' : Sites) : Prop where
  site : ∀ (id : Nat) (site : Site), s.sites[id]? = some site → s'.sites[id]? = some site
  generators : s.generators ⊆ s'.generators

def Registered (s : Sites) (t : PointerTable) (a : Allocation) : Prop :=
  ∃ id site, s.sites[id]? = some site ∧ site.label = a.label ∧
    s.generators.HoldsAt t (.allocation a.method a.stmt) id

theorem Registered.mono (hs : s.Extends s') (hle : t ≤ t') (hr : s.Registered t a) :
    s'.Registered t' a := by
  obtain ⟨id, site, hid, hlabel, hholds⟩ := hr
  exact ⟨id, site, hs.site id site hid, hlabel, hholds.mono hs.generators hle⟩

theorem register_spec (s : Sites) (t : PointerTable) (a : Allocation) :
    s.Extends (s.register t a).1 ∧ t ≤ (s.register t a).2 ∧
      (s.register t a).1.Registered (s.register t a).2 a ∧
      (s.generators ⊆ s.seed → (s.register t a).1.generators ⊆ (s.register t a).1.seed) := by
  have hsource := (t.intern (.allocation a.method a.stmt)).2.le_intern (.var ⟨a.method, a.lhs⟩)
  have hle := PointerTable.le_trans (t.le_intern (.allocation a.method a.stmt)) hsource
  refine ⟨⟨fun id site hid => ?_, fun x hx => ?_⟩, hle, ?_, fun hsub x hx => ?_⟩
  · have hlt := (Array.getElem?_eq_some_iff.1 hid).1
    exact (Array.getElem?_push_lt hlt).trans ((Array.getElem?_eq_getElem hlt).symm.trans hid)
  · exact OrderedSet.mem_insert.2 (Or.inr hx)
  · refine ⟨s.size, _, Array.getElem?_push_size, rfl, _, PointerTable.get?_of_le hsource
      (t.get?_intern _), ?_⟩
    exact OrderedSet.mem_insert.2 (Or.inl rfl)
  · refine OrderedSet.mem_insert.2 (Or.inr (OrderedSet.mem_insert.2 ?_))
    exact (OrderedSet.mem_insert.1 hx).imp_right (hsub x)

theorem registerAll_spec (s : Sites) (t : PointerTable) (as : List Allocation) :
    s.Extends (registerAll s t as).1 ∧ t ≤ (registerAll s t as).2 ∧
      (∀ a ∈ as, (registerAll s t as).1.Registered (registerAll s t as).2 a) ∧
      (s.generators ⊆ s.seed →
        (registerAll s t as).1.generators ⊆ (registerAll s t as).1.seed) := by
  induction as generalizing s t with
  | nil =>
    exact ⟨⟨fun _ _ hid => hid, OrderedSet.subset_refl _⟩, t.le_refl,
      fun a ha => (nomatch ha), fun hsub => hsub⟩
  | cons a as ih =>
    obtain ⟨hs, hle, hr, hseed⟩ := register_spec s t a
    obtain ⟨hs', hle', hr', hseed'⟩ := ih (s.register t a).1 (s.register t a).2
    refine ⟨⟨fun id site hid => hs'.site id site (hs.site id site hid),
      OrderedSet.subset_trans hs.generators hs'.generators⟩, PointerTable.le_trans hle hle', ?_,
      fun hsub => hseed' (hseed hsub)⟩
    intro b hb
    rcases List.mem_cons.1 hb with rfl | hb
    · exact hr.mono hs' hle'
    · exact hr' b hb

theorem ofMethods_ok {program : Program} {methods : List MethodId}
    (hm : ∀ m ∈ methods, (program.method? m).isSome = true) (h : Recognizer) (t : PointerTable) :
    ∃ r, ofMethods program h methods t = .ok r := by
  have hfound : ∀ m ∈ (OrderedSet.ofList methods).toList, ∃ as : List Allocation, (do
      return allocations h m 0 none (← program.method m).stmts) = Except.ok as := by
    intro m hmem
    obtain ⟨method, hmethod⟩ := Option.isSome_iff_exists.1 (hm m (OrderedSet.mem_ofList.1 hmem))
    have hok : program.method m = .ok method := orFault_eq_ok.2 hmethod
    exact ⟨_, by rw [hok]; rfl⟩
  obtain ⟨found, hfound⟩ := mapM_ok hfound
  exact ⟨_, by rw [ofMethods, hfound]; rfl⟩

/-- All allocations of the given methods are registered, and the seed has the generators. -/
theorem ofMethods_spec {program : Program} {methods : List MethodId}
    (hok : ofMethods program h methods t = .ok (s, t')) :
    t ≤ t' ∧ s.generators ⊆ s.seed ∧ ∀ m ∈ methods, ∀ method, program.method? m = some method →
      ∀ a ∈ allocations h m 0 none method.stmts, s.Registered t' a := by
  obtain ⟨found, hfound, heq⟩ := bind_eq_ok.1 hok
  obtain ⟨-, hle, hall, hseed⟩ := registerAll_spec empty t found.flatten
  rw [pure_eq_ok] at heq
  rw [heq] at hle hall hseed
  refine ⟨hle, hseed (OrderedSet.subset_refl _), fun m hm method hmethod a ha => hall a ?_⟩
  refine List.mem_flatten.2 ⟨_, (mem_mapM hfound).2 ⟨m, OrderedSet.mem_ofList.2 hm, ?_⟩, ha⟩
  rw [Program.method, hmethod]
  rfl

end Sites

end PointsTo
