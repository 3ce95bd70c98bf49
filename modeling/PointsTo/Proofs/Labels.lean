import PointsTo.Proofs.Registry

/-! The registry of a set of methods. Its sites are numbered by method and statement, each has the
label of the last hook since the `new` before it, and the seeds hold nothing but these sites. -/
namespace PointsTo

variable {h : Recognizer} {m : MethodId} {i x k : Nat} {waiting : Option Int} {stmts : List Stmt}
  {st : Stmt} {a : Allocation} {c : Call} {l : Int} {t t' : PointerTable} {s : Sites}

namespace Stmt

def isNew : Stmt → Bool
  | new .. => true
  | _ => false

def waitingAfter (h : Recognizer) (waiting : Option Int) : Stmt → Option Int
  | new .. => none
  | call c =>
    match h c with
    | some (.alloc label) => label
    | _ => waiting
  | _ => waiting

/-- A waiting label comes from the statement itself, or passes a statement that is neither a hook
nor a `new`. -/
theorem waitingAfter_eq_some : st.waitingAfter h waiting = some l ↔
    (∃ c, st = .call c ∧ h c = some (.alloc (some l))) ∨
      (st.isNew = false ∧ st.isAllocHook h = false) ∧ waiting = some l := by
  cases st with
  | new lhs type => simp [waitingAfter, isNew]
  | call c =>
    rw [waitingAfter, isAllocHook]
    split
    · next label hc => simp [hc]
    · next hc =>
      have hno : h c ≠ some (.alloc (some l)) := hc (some l)
      simp [isNew, hno]
  | _ => simp [waitingAfter, isNew, isAllocHook]

end Stmt

/-- The label that waits at statement `x`, given the one that waits at the first statement. -/
def waitingAt (h : Recognizer) (waiting : Option Int) (stmts : List Stmt) (x : Nat) : Option Int :=
  (stmts.take x).foldl (Stmt.waitingAfter h) waiting

/-- The call at `k` is the last hook for labels before `x`, and no `new` stands between. -/
structure LastHook (h : Recognizer) (stmts : List Stmt) (x k : Nat) (c : Call) : Prop where
  before : k < x
  call : stmts[k]? = some (.call c)
  hook : ∃ label, h c = some (.alloc label)
  last : ∀ j, k < j → j < x → ∀ st, stmts[j]? = some st →
    st.isNew = false ∧ st.isAllocHook h = false

theorem lastHook_succ_of_none (hx : stmts[x]? = none) :
    LastHook h stmts (x + 1) k c ↔ LastHook h stmts x k c := by
  constructor
  · intro hk
    have hne : k ≠ x := by
      rintro rfl
      rw [hk.call] at hx
      cases hx
    have hlt := hk.before
    exact ⟨by omega, hk.call, hk.hook, fun j hkj hj => hk.last j hkj (by omega)⟩
  · intro hk
    refine ⟨Nat.lt_succ_of_lt hk.before, hk.call, hk.hook, fun j hkj hj st hst => ?_⟩
    have hne : j ≠ x := by
      rintro rfl
      rw [hst] at hx
      cases hx
    exact hk.last j hkj (by omega) st hst

theorem lastHook_succ (hx : stmts[x]? = some st) : LastHook h stmts (x + 1) k c ↔
    (k = x ∧ st = .call c ∧ ∃ label, h c = some (.alloc label)) ∨
      (st.isNew = false ∧ st.isAllocHook h = false) ∧ LastHook h stmts x k c := by
  constructor
  · intro hk
    rcases Nat.lt_succ_iff_lt_or_eq.1 hk.before with hlt | rfl
    · refine Or.inr ⟨hk.last x hlt (Nat.lt_succ_self x) st hx, hlt, hk.call, hk.hook, ?_⟩
      exact fun j hkj hj => hk.last j hkj (Nat.lt_succ_of_lt hj)
    · exact Or.inl ⟨rfl, Option.some.inj (hx.symm.trans hk.call), hk.hook⟩
  · rintro (⟨rfl, rfl, hhook⟩ | ⟨hpass, hk⟩)
    · exact ⟨Nat.lt_succ_self k, hx, hhook, fun j hkj hj => by omega⟩
    · refine ⟨Nat.lt_succ_of_lt hk.before, hk.call, hk.hook, fun j hkj hj st' hst' => ?_⟩
      rcases Nat.lt_succ_iff_lt_or_eq.1 hj with hlt | rfl
      · exact hk.last j hkj hlt st' hst'
      · cases hx.symm.trans hst'
        exact hpass

/-- What waits at a statement is the label of the last hook. -/
theorem waitingAt_eq_some : waitingAt h none stmts x = some l ↔
    ∃ k c, LastHook h stmts x k c ∧ h c = some (.alloc (some l)) := by
  induction x with
  | zero =>
    have hnone : ∀ k c, ¬ LastHook h stmts 0 k c := fun k c hk => Nat.not_lt_zero k hk.before
    simp [waitingAt, hnone]
  | succ x ih =>
    cases hx : stmts[x]? with
    | none =>
      have htake : stmts.take (x + 1) = stmts.take x := by
        rw [List.take_add_one, hx, Option.toList_none, List.append_nil]
      simp only [waitingAt, htake, lastHook_succ_of_none hx]
      exact ih
    | some st =>
      have htake : stmts.take (x + 1) = stmts.take x ++ [st] := by
        rw [List.take_add_one, hx, Option.toList_some]
      have hstep : waitingAt h none stmts (x + 1) =
          st.waitingAfter h (waitingAt h none stmts x) := by
        rw [waitingAt, htake, List.foldl_concat]
        rfl
      rw [hstep, Stmt.waitingAfter_eq_some, ih]
      simp only [lastHook_succ hx]
      constructor
      · rintro (⟨c, rfl, hc⟩ | ⟨hpass, k, c, hk, hc⟩)
        · exact ⟨x, c, Or.inl ⟨rfl, rfl, _, hc⟩, hc⟩
        · exact ⟨k, c, Or.inr ⟨hpass, hk⟩, hc⟩
      · rintro ⟨k, c, ⟨-, hst, -⟩ | ⟨hpass, hk⟩, hc⟩
        · exact Or.inl ⟨c, hst, hc⟩
        · exact Or.inr ⟨hpass, k, c, hk, hc⟩

theorem label_of_mem_allocations (ha : a ∈ allocations h m i waiting stmts) :
    ∃ k, a.stmt = i + k ∧ a.label = waitingAt h waiting stmts k := by
  fun_induction allocations h m i waiting stmts with
  | case1 => cases ha
  | case2 i waiting lhs type ss ih =>
    rcases List.mem_cons.1 ha with rfl | ha
    · exact ⟨0, rfl, rfl⟩
    · obtain ⟨k, hk, hlabel⟩ := ih ha
      exact ⟨k + 1, by omega, hlabel⟩
  | case3 i waiting c ss label hc ih =>
    obtain ⟨k, hk, hlabel⟩ := ih ha
    refine ⟨k + 1, by omega, ?_⟩
    simp [hlabel, waitingAt, Stmt.waitingAfter, hc]
  | case4 i waiting c ss hc ih =>
    obtain ⟨k, hk, hlabel⟩ := ih ha
    refine ⟨k + 1, by omega, ?_⟩
    have hpass : Stmt.waitingAfter h waiting (.call c) = waiting := by
      rw [Stmt.waitingAfter]
      split
      · next label hlabel => exact absurd hlabel (hc label)
      · rfl
    simp [hlabel, waitingAt, hpass]
  | case5 i waiting st ss hnew hcall ih =>
    obtain ⟨k, hk, hlabel⟩ := ih ha
    refine ⟨k + 1, by omega, ?_⟩
    have hpass : st.waitingAfter h waiting = waiting := by
      cases st with
      | new lhs type => exact absurd rfl (hnew lhs type)
      | call c => exact absurd rfl (hcall c)
      | _ => rfl
    simp [hlabel, waitingAt, hpass]

theorem Operand.int?_eq_some {o : Operand} : o.int? = some l ↔ o = .const (.int l) := by
  rcases o with slot | _ | n | text <;> simp [int?]

/-- A named hook gives a label exactly if its first argument is an integer constant. -/
theorem Hooks.label_iff {hooks : Hooks} (hc : ∃ label, hooks.classify c = some (.alloc label)) :
    hooks.classify c = some (.alloc (some l)) ↔ c.args[0]? = some (.const (.int l)) := by
  obtain ⟨label, hc⟩ := hc
  have hlabel : label = c.args[0]?.bind Operand.int? := by
    unfold classify at hc
    split at hc
    · cases hc
    · split at hc
      · cases hc
        rfl
      · split at hc <;> cases hc
  rw [hc, hlabel]
  simp [Option.bind_eq_some_iff, Operand.int?_eq_some]

namespace Sites

variable {p : Program} {methods : List MethodId} {as : List Allocation}

theorem allocationsOf_ascending (p : Program) (h : Recognizer) (methods : List MethodId) :
    (allocationsOf p h methods).Pairwise fun a b =>
      a.method < b.method ∨ a.method = b.method ∧ a.stmt < b.stmt := by
  rw [allocationsOf, List.pairwise_flatMap]
  constructor
  · intro m _
    refine allocations_ascending.1.imp_of_mem fun ha hb hlt => Or.inr ⟨?_, hlt⟩
    rw [method_of_mem_allocations ha, method_of_mem_allocations hb]
  · refine (OrderedSet.ofList methods).ascending.imp fun hlt a ha b hb => Or.inl ?_
    rw [method_of_mem_allocations ha, method_of_mem_allocations hb]
    exact Nat.compare_eq_lt.1 hlt

theorem label_of_mem_allocationsOf (ha : a ∈ allocationsOf p h methods) {method : Method}
    (hm : p.method? a.method = some method) :
    a.label = waitingAt h none method.stmts a.stmt := by
  obtain ⟨m, -, ha⟩ := List.mem_flatMap.1 ha
  obtain rfl := method_of_mem_allocations ha
  rw [hm] at ha
  obtain ⟨k, hk, hlabel⟩ := label_of_mem_allocations ha
  rw [hlabel, hk, Nat.zero_add]
  rfl

/-- What the registry of the `new` statements of some methods holds. -/
structure Registers (p : Program) (h : Recognizer) (methods : List MethodId) (t t' : PointerTable)
    (s : Sites) : Prop where
  numbers : ∀ (id : Nat) site, s.sites[id]? = some site → site.id = id
  ascending : s.sites.toList.Pairwise fun a b =>
    a.method < b.method ∨ a.method = b.method ∧ a.stmt < b.stmt
  complete : ∀ m x type, (∃ site ∈ s.sites, site.method = m ∧ site.stmt = x ∧ site.type = type) ↔
    m ∈ methods ∧ ∃ method lhs, p.method? m = some method ∧
      method.stmts[x]? = some (.new lhs type)
  labels : ∀ site ∈ s.sites, ∀ method, p.method? site.method = some method → ∀ l,
    site.label = some l ↔ ∃ k c, LastHook h method.stmts site.stmt k c ∧
      h c = some (.alloc (some l))
  constants : ∀ hooks : Hooks, h = hooks.classify → ∀ site ∈ s.sites, ∀ method,
    p.method? site.method = some method → ∀ l, site.label = some l ↔
      ∃ k c, LastHook h method.stmts site.stmt k c ∧ c.args[0]? = some (.const (.int l))
  /-- The pointers of a `new` statement have numbers, and old numbers stay. -/
  table : t ≤ t' ∧ ∀ m ∈ methods, ∀ method, p.method? m = some method → ∀ x lhs type,
    method.stmts[x]? = some (.new lhs type) →
      (∃! n, t'.get? n = some (.allocation m x)) ∧ ∃! n, t'.get? n = some (.var ⟨m, lhs⟩)
  generators : ∀ n id, s.generators.Holds n id ↔ ∃ site, s.sites[id]? = some site ∧
    t'.get? n = some (.allocation site.method site.stmt)
  seed : ∀ n id, s.seed.Holds n id ↔ s.generators.Holds n id ∨
    ∃ v, t'.get? n = some (.var v) ∧ ∃ site method, s.sites[id]? = some site ∧
      site.method = v.method ∧ p.method? v.method = some method ∧
        method.stmts[site.stmt]? = some (.new v.slot site.type)

theorem ofMethods_eq_ok_iff : (∃ r, ofMethods p h methods t = .ok r) ↔
    ∀ m ∈ methods, (p.method? m).isSome = true := by
  constructor
  · rintro ⟨r, hr⟩ m hm
    obtain ⟨found, hfound, -⟩ := bind_eq_ok.1 hr
    obtain ⟨as, has⟩ := ok_of_mapM hfound m (OrderedSet.mem_ofList.2 hm)
    obtain ⟨method, hmethod, -⟩ := bind_eq_ok.1 has
    rw [orFault_eq_ok.1 hmethod]
    rfl
  · exact fun hm => ofMethods_ok hm h t

/-- A set of methods may be listed in any order, and with repetitions. -/
theorem ofMethods_eq_of_mem_iff {methods' : List MethodId}
    (hm : ∀ m, m ∈ methods' ↔ m ∈ methods) :
    ofMethods p h methods' t = ofMethods p h methods t := by
  have hset : OrderedSet.ofList methods' = OrderedSet.ofList methods := by
    apply OrderedSet.ext
    intro m
    rw [OrderedSet.mem_ofList, OrderedSet.mem_ofList, hm]
  rw [ofMethods, hset, ofMethods]

theorem mem_allocationsOf_iff {type : String} :
    (∃ a ∈ allocationsOf p h methods, a.method = m ∧ a.stmt = x ∧ a.type = type) ↔
      m ∈ methods ∧ ∃ method lhs, p.method? m = some method ∧
        method.stmts[x]? = some (.new lhs type) := by
  constructor
  · rintro ⟨a, ha, rfl, rfl, rfl⟩
    obtain ⟨hm, hx⟩ := mem_allocationsOf.1 ⟨a.label, ha⟩
    cases hmethod : p.method? a.method with
    | none => simp [hmethod] at hx
    | some method => exact ⟨hm, method, a.lhs, rfl, by simpa [hmethod] using hx⟩
  · rintro ⟨hm, method, lhs, hmethod, hx⟩
    obtain ⟨label, ha⟩ : ∃ label, ⟨m, x, lhs, type, label⟩ ∈ allocationsOf p h methods :=
      mem_allocationsOf.2 ⟨hm, by rw [hmethod]; exact hx⟩
    exact ⟨_, ha, rfl, rfl, rfl⟩

theorem Enumerates.mem_sites_iff (hs : s.Enumerates t as) {site : Site} : site ∈ s.sites ↔
    ∃ id a, as[id]? = some a ∧ site = ⟨id, a.method, a.stmt, a.type, a.label⟩ := by
  rw [Array.mem_iff_getElem?]
  simp only [hs.site_iff]

theorem Enumerates.ascending (hs : s.Enumerates t as)
    (has : as.Pairwise fun a b => a.method < b.method ∨ a.method = b.method ∧ a.stmt < b.stmt) :
    s.sites.toList.Pairwise fun a b =>
      a.method < b.method ∨ a.method = b.method ∧ a.stmt < b.stmt := by
  have hfst : (as.zipIdx.map Prod.fst).Pairwise fun a b =>
      a.method < b.method ∨ a.method = b.method ∧ a.stmt < b.stmt := by
    rwa [List.zipIdx_map_fst]
  rw [hs.sites, List.pairwise_map]
  exact List.pairwise_map.1 hfst

theorem existsUnique_number {q : Pointer} (hq : ∃ n, t.get? n = some q) :
    ∃! n, t.get? n = some q := by
  obtain ⟨n, hn⟩ := hq
  exact ⟨n, hn, fun n' hn' => PointerTable.get?_inj hn' hn⟩

section Registry

variable (hs : s.Enumerates t (allocationsOf p h methods))

include hs

theorem Enumerates.exists_site_iff {type : String} :
    (∃ site ∈ s.sites, site.method = m ∧ site.stmt = x ∧ site.type = type) ↔
      m ∈ methods ∧ ∃ method lhs, p.method? m = some method ∧
        method.stmts[x]? = some (.new lhs type) := by
  rw [← mem_allocationsOf_iff (h := h)]
  constructor
  · rintro ⟨site, hsite, hat⟩
    obtain ⟨id, a, ha, rfl⟩ := hs.mem_sites_iff.1 hsite
    exact ⟨a, List.mem_of_getElem? ha, hat⟩
  · rintro ⟨a, ha, hat⟩
    obtain ⟨id, hid⟩ := List.mem_iff_getElem?.1 ha
    exact ⟨_, hs.mem_sites_iff.2 ⟨id, a, hid, rfl⟩, hat⟩

theorem Enumerates.label_iff {site : Site} (hsite : site ∈ s.sites) {method : Method}
    (hmethod : p.method? site.method = some method) : site.label = some l ↔
      ∃ k c, LastHook h method.stmts site.stmt k c ∧ h c = some (.alloc (some l)) := by
  obtain ⟨id, a, ha, rfl⟩ := hs.mem_sites_iff.1 hsite
  change a.label = some l ↔ _
  rw [label_of_mem_allocationsOf (List.mem_of_getElem? ha) hmethod, waitingAt_eq_some]

theorem Enumerates.existsUnique_numbers {method : Method} (hm : m ∈ methods)
    (hmethod : p.method? m = some method) {lhs : Slot} {type : String}
    (hx : method.stmts[x]? = some (.new lhs type)) :
    (∃! n, t.get? n = some (.allocation m x)) ∧ ∃! n, t.get? n = some (.var ⟨m, lhs⟩) := by
  obtain ⟨label, ha⟩ : ∃ label, ⟨m, x, lhs, type, label⟩ ∈ allocationsOf p h methods :=
    mem_allocationsOf.2 ⟨hm, by rw [hmethod]; exact hx⟩
  obtain ⟨hsource, htarget⟩ := hs.numbered _ ha
  exact ⟨existsUnique_number hsource, existsUnique_number htarget⟩

theorem Enumerates.generators_iff {n id : Nat} : s.generators.Holds n id ↔
    ∃ site, s.sites[id]? = some site ∧
      t.get? n = some (.allocation site.method site.stmt) := by
  rw [hs.generators]
  simp only [hs.site_iff]
  constructor
  · rintro ⟨a, ha, hn⟩
    exact ⟨_, ⟨a, ha, rfl⟩, hn⟩
  · rintro ⟨site, ⟨a, ha, rfl⟩, hn⟩
    exact ⟨a, ha, hn⟩

theorem Enumerates.seed_iff {n id : Nat} : s.seed.Holds n id ↔ s.generators.Holds n id ∨
    ∃ v, t.get? n = some (.var v) ∧ ∃ site method, s.sites[id]? = some site ∧
      site.method = v.method ∧ p.method? v.method = some method ∧
        method.stmts[site.stmt]? = some (.new v.slot site.type) := by
  rw [hs.seed, hs.generators]
  simp only [hs.site_iff]
  constructor
  · rintro ⟨a, ha, hn | hn⟩
    · exact Or.inl ⟨a, ha, hn⟩
    · obtain ⟨-, hx⟩ := mem_allocationsOf.1 ⟨a.label, List.mem_of_getElem? ha⟩
      cases hmethod : p.method? a.method with
      | none => simp [hmethod] at hx
      | some method =>
        rw [hmethod] at hx
        exact Or.inr ⟨_, hn, _, method, ⟨a, ha, rfl⟩, rfl, hmethod, hx⟩
  · rintro (⟨a, ha, hn⟩ | ⟨⟨m, slot⟩, hn, site, method, ⟨a, ha, rfl⟩, hm, hmethod, hx⟩)
    · exact ⟨a, ha, Or.inl hn⟩
    · obtain rfl : a.method = m := hm
      obtain ⟨-, hown⟩ := mem_allocationsOf.1 ⟨a.label, List.mem_of_getElem? ha⟩
      rw [hmethod] at hown
      cases hown.symm.trans hx
      exact ⟨a, ha, Or.inr hn⟩

end Registry

theorem Enumerates.registers (hs : s.Enumerates t' (allocationsOf p h methods)) (hle : t ≤ t') :
    Registers p h methods t t' s := by
  constructor
  case numbers =>
    intro id site hsite
    obtain ⟨a, -, rfl⟩ := hs.site_iff.1 hsite
    rfl
  case ascending => exact hs.ascending (allocationsOf_ascending p h methods)
  case complete => exact fun m x type => hs.exists_site_iff
  case labels => exact fun site hsite method hmethod l => hs.label_iff hsite hmethod
  case constants =>
    rintro hooks rfl site hsite method hmethod l
    rw [hs.label_iff hsite hmethod]
    exact exists₂_congr fun k c => and_congr_right fun hk => Hooks.label_iff hk.hook
  case table =>
    exact ⟨hle, fun m hm method hmethod x lhs type hx => hs.existsUnique_numbers hm hmethod hx⟩
  case generators => exact fun n id => hs.generators_iff
  case seed => exact fun n id => hs.seed_iff

/-- The registry depends on the set of the given methods only. There is one exactly if all of them
exist, and its sites are their `new` statements in order, with the labels of the hooks. -/
theorem ofMethods_registers (p : Program) (h : Recognizer) (methods : List MethodId)
    (t : PointerTable) :
    (∀ methods', (∀ m, m ∈ methods' ↔ m ∈ methods) →
      ofMethods p h methods' t = ofMethods p h methods t) ∧
    ((∃ r, ofMethods p h methods t = .ok r) ↔ ∀ m ∈ methods, (p.method? m).isSome = true) ∧
    ∀ s t', ofMethods p h methods t = .ok (s, t') → Registers p h methods t t' s := by
  refine ⟨fun methods' hm => ofMethods_eq_of_mem_iff hm, ofMethods_eq_ok_iff, fun s t' hok => ?_⟩
  have hs := registerAll_enumerates (empty_enumerates t) (allocationsOf p h methods)
  rw [← ofMethods_eq_registerAll hok, List.nil_append] at hs
  exact hs.registers (ofMethods_spec hok).1

def labeling : Program :=
  let hook := fun args =>
    Stmt.call ⟨none, ⟨"benchmark.internal.Benchmark", "alloc", ""⟩, args, none⟩
  ⟨[], [
    ⟨"Main", "main", "", true, false, none, [], ["a", "b"], [hook [.const (.int 5)],
      hook [.const (.int 1)], .new 0 "A", .new 0 "B", hook [.const (.int 7)], hook [.var 0],
      .new 1 "C", hook [.const (.int 9)]]⟩,
    ⟨"A", "make", "", true, false, none, [], ["x"], [.new 0 "A"]⟩], none⟩

theorem labeling_registers : ∃ s t',
    ofMethods labeling Hooks.default.classify [1, 0, 1] ∅ = .ok (s, t') ∧
      ofMethods labeling Hooks.default.classify [0, 1] ∅ = .ok (s, t') ∧
      s.sites.toList.map (fun site => (site.method, site.stmt, site.label)) =
        [(0, 2, some 1), (0, 3, none), (0, 6, none), (1, 0, none)] ∧
      Registers labeling Hooks.default.classify [1, 0, 1] ∅ t' s := by
  obtain ⟨hsame, hiff, hregisters⟩ :=
    ofMethods_registers labeling Hooks.default.classify [1, 0, 1] ∅
  obtain ⟨⟨s, t'⟩, hok⟩ := hiff.2 (by decide)
  obtain ⟨⟨s', t''⟩, hok', hsites⟩ : ∃ r, ofMethods labeling Hooks.default.classify [1, 0, 1] ∅ =
      .ok r ∧ r.1.sites.toList.map (fun site => (site.method, site.stmt, site.label)) =
        [(0, 2, some 1), (0, 3, none), (0, 6, none), (1, 0, none)] := exists_ok (by decide +kernel)
  cases hok.symm.trans hok'
  have hset : ∀ m, m ∈ [0, 1] ↔ m ∈ [1, 0, 1] := by
    intro m
    simp only [List.mem_cons, List.not_mem_nil, or_false]
    omega
  exact ⟨s, t', hok, (hsame [0, 1] hset).trans hok, hsites, hregisters s t' hok⟩

end Sites

end PointsTo
