import PointsTo.Proofs.FieldCopies

/-! Field copies in one pass. Sets of variables are joined by copies only, so the fields of a set
are those used through connected variables; the pass names no other fields, so it is closed when it
ends. -/
namespace PointsTo

namespace Components

variable {cs : Components} {v w : Var} {i : Nat} {r : Var → Var → Prop}

structure Within (r : Var → Var → Prop) (cs : Components) : Prop where
  distinct : cs.vars.Nodup
  wellFormed : cs.sets.WellFormed
  size : cs.sets.size ≤ cs.vars.length
  related : ∀ v w, cs.Together v w → Relation.EqvGen r v w

theorem within_empty (r : Var → Var → Prop) : Within r .empty where
  distinct := .nil
  wellFormed := UnionFind.empty_wellFormed
  size := Nat.le_refl 0
  related v w h := by
    obtain ⟨root, hv, -⟩ := h
    cases hv

theorem rootOf_eq_some {root : Nat} :
    cs.rootOf v = some root ↔ ∃ i, cs.vars.idxOf? v = some i ∧ cs.sets.root i = root :=
  Option.map_eq_some_iff

theorem Within.root_lt (h : cs.Within r) {root : Nat} (hv : cs.rootOf v = some root) :
    root < cs.vars.length := by
  obtain ⟨i, hi, rfl⟩ := rootOf_eq_some.1 hv
  have hlt := (List.idxOf?_eq_some_iff.1 hi).1
  by_cases hsize : i < cs.sets.size
  · exact Nat.lt_of_lt_of_le (h.wellFormed.root_lt_size hsize) h.size
  · rw [h.wellFormed.root_of_size_le (Nat.le_of_not_lt hsize)]
    exact hlt

theorem Within.rootOf_append (h : cs.Within r) {root : Nat}
    (hw : Components.rootOf ⟨cs.vars ++ [v], cs.sets⟩ w = some root) :
    cs.rootOf w = some root ∨ w = v ∧ root = cs.vars.length := by
  obtain ⟨i, hi, rfl⟩ := rootOf_eq_some.1 hw
  rw [List.idxOf?, List.findIdx?_append] at hi
  cases hold : cs.vars.findIdx? (· == w) with
  | some j =>
    rw [hold] at hi
    cases hi
    exact .inl (rootOf_eq_some.2 ⟨i, hold, rfl⟩)
  | none =>
    rw [hold] at hi
    by_cases hvw : v = w
    · subst hvw
      obtain rfl : cs.vars.length = i := by simpa using hi
      exact .inr ⟨rfl, h.wellFormed.root_of_size_le h.size⟩
    · simp [hvw] at hi

theorem Within.index (h : cs.Within r) (v : Var) : (cs.index v).2.Within r := by
  unfold Components.index
  cases hv : cs.vars.idxOf? v with
  | some i => exact h
  | none =>
    have hnew : v ∉ cs.vars := List.idxOf?_eq_none_iff.1 hv
    constructor
    case distinct =>
      refine List.nodup_append.2 ⟨h.distinct, List.nodup_singleton v, ?_⟩
      rintro a ha b hb rfl
      exact hnew (List.mem_singleton.1 hb ▸ ha)
    case wellFormed => exact h.wellFormed
    case size =>
      have := h.size
      simp only [List.length_append, List.length_singleton]
      omega
    case related =>
      rintro a b ⟨root, ha, hb⟩
      rcases h.rootOf_append ha with ha' | ⟨hav, hroot⟩
      · rcases h.rootOf_append hb with hb' | ⟨-, hroot⟩
        · exact h.related a b ⟨root, ha', hb'⟩
        · exact absurd (hroot ▸ h.root_lt ha') (Nat.lt_irrefl _)
      · rcases h.rootOf_append hb with hb' | ⟨hbv, -⟩
        · exact absurd (hroot ▸ h.root_lt hb') (Nat.lt_irrefl _)
        · rw [hav, hbv]
          exact .refl v

/-- Joining two sets relates their variables by the pair that joins them. -/
theorem Within.union (h : cs.Within r) {i j : Nat} (hi : cs.vars.idxOf? v = some i)
    (hj : cs.vars.idxOf? w = some j) (hvw : r v w) :
    Within r { cs with sets := (cs.sets.union i j).2 } := by
  have hspec := UnionFind.union_spec h.wellFormed i j
  constructor
  case distinct => exact h.distinct
  case wellFormed => exact hspec.wellFormed
  case size =>
    have hilt := (List.idxOf?_eq_some_iff.1 hi).1
    have hjlt := (List.idxOf?_eq_some_iff.1 hj).1
    have := h.size
    simp only [UnionFind.size_union h.wellFormed, UnionFind.size_growTo]
    omega
  case related =>
    rintro a b ⟨root, ha, hb⟩
    obtain ⟨k, hk, ha⟩ := rootOf_eq_some.1 ha
    obtain ⟨l, hl, hb⟩ := rootOf_eq_some.1 hb
    have hrv : cs.rootOf v = some (cs.sets.root i) := rootOf_eq_some.2 ⟨i, hi, rfl⟩
    have hrw : cs.rootOf w = some (cs.sets.root j) := rootOf_eq_some.2 ⟨j, hj, rfl⟩
    -- a variable whose set was joined is related to the first of the pair
    have hjoined : ∀ c k, cs.vars.idxOf? c = some k →
        cs.sets.root k = cs.sets.root i ∨ cs.sets.root k = cs.sets.root j →
          Relation.EqvGen r c v := by
      intro c k hk hroot
      have hrc : cs.rootOf c = some (cs.sets.root k) := rootOf_eq_some.2 ⟨k, hk, rfl⟩
      rcases hroot with hroot | hroot
      · exact h.related c v ⟨_, hrc, hroot ▸ hrv⟩
      · exact .trans _ _ _ (h.related c w ⟨_, hrc, hroot ▸ hrw⟩) (.symm _ _ (.rel _ _ hvw))
    rcases hspec.cases (ha.trans hb.symm) with hsame | ⟨hka, hlb⟩
    · exact h.related a b ⟨_, rootOf_eq_some.2 ⟨k, hk, rfl⟩, rootOf_eq_some.2 ⟨l, hl, hsame.symm⟩⟩
    · exact .trans _ _ _ (hjoined a k hk hka) (.symm _ _ (hjoined b l hl hlb))

theorem Within.foldl_connect {pairs : List (Var × Var)} (h : cs.Within r)
    (hpairs : ∀ pair ∈ pairs, r pair.1 pair.2) : (pairs.foldl connect cs).Within r := by
  induction pairs generalizing cs with
  | nil => exact h
  | cons pair pairs ih =>
    obtain ⟨hpair, hpairs⟩ := List.forall_mem_cons.1 hpairs
    obtain ⟨-, hfirst, -⟩ := index_spec cs pair.1
    obtain ⟨-, hsecond, hold⟩ := index_spec (cs.index pair.1).2 pair.2
    exact ih (((h.index pair.1).index pair.2).union (hold _ _ hfirst) hsecond hpair) hpairs

def fieldSet (cs : Components) (t : PointerTable) (v : Var) : OrderedSet FieldRef :=
  ((cs.rootOf v).bind fun root => (cs.fields t).lookup root).getD ∅

theorem toList_fieldSet (cs : Components) (t : PointerTable) (v : Var) :
    (cs.fieldSet t v).toList = cs.fieldsAt t v := by
  rw [fieldSet, fieldsAt]
  cases (cs.rootOf v).bind fun root => (cs.fields t).lookup root <;> rfl

theorem exists_used_of_fields {t : PointerTable} {f : FieldRef} {root : Nat}
    {fs : OrderedSet FieldRef} (h : (cs.fields t).lookup root = some fs) (hf : f ∈ fs) :
    ∃ v i, cs.vars[i]? = some v ∧ cs.sets.root i = root ∧ f ∈ t.fieldsOf v := by
  obtain ⟨before, after, heq, -⟩ := List.lookup_eq_some_iff.1 h
  have hmem : (root, fs) ∈ cs.fields t := heq ▸ List.mem_append_right _ List.mem_cons_self
  obtain ⟨root', -, hpair⟩ := List.mem_map.1 hmem
  cases hpair
  obtain ⟨own, hown, hf⟩ := (mem_foldl_union.1 hf).resolve_left (OrderedSet.not_mem_empty f)
  obtain ⟨⟨v, i⟩, hvi, hpair⟩ := List.mem_map.1 (List.mem_filter.1 hown).1
  cases hpair
  exact ⟨v, i, List.mem_zipIdx_iff_getElem?.1 hvi, rfl, hf⟩

/-- The fields of the set of a variable are those that are used through a variable in it. -/
theorem Within.mem_fieldsAt_iff (h : cs.Within r) {t : PointerTable} {f : FieldRef} :
    f ∈ cs.fieldsAt t v ↔ ∃ w, cs.Together v w ∧ f ∈ t.fieldsOf w := by
  constructor
  · intro hf
    cases hv : cs.rootOf v with
    | none =>
      rw [fieldsAt, hv] at hf
      cases hf
    | some root =>
      cases hfields : (cs.fields t).lookup root with
      | none =>
        rw [fieldsAt, hv, Option.bind_some, hfields] at hf
        cases hf
      | some fs =>
        rw [fieldsAt, hv, Option.bind_some, hfields] at hf
        obtain ⟨w, i, hi, hroot, hused⟩ := exists_used_of_fields hfields hf
        have hidx : cs.vars.idxOf? w = some i := by
          obtain ⟨hlt, rfl⟩ := List.getElem?_eq_some_iff.1 hi
          refine List.idxOf?_eq_some_iff.2 ⟨hlt, rfl, fun j hj heq => ?_⟩
          exact absurd ((List.Nodup.getElem_inj_iff h.distinct).1 heq) (Nat.ne_of_lt hj)
        exact ⟨w, ⟨root, hv, rootOf_eq_some.2 ⟨i, hidx, hroot⟩⟩, hused⟩
  · rintro ⟨w, htogether, hf⟩
    obtain ⟨root, hv, hw⟩ := id htogether
    rw [fieldsAt_congr htogether]
    exact mem_fieldsAt hw hf

end Components

variable {t t' u : PointerTable} {fieldsAt : Var → List FieldRef} {c : Copy}
  {cs cs' own : List Copy} {v w : Var} {added added' : Nat}

def FieldsCopied (t : PointerTable) (v w : Var) (own : List Copy) (fs : List FieldRef) : Prop :=
  List.Forall₂ (fun c f => c.origin = .fieldCopy ∧
    c.Names t (.instanceField v f, .instanceField w f)) own fs

structure Copy.Brings (t t' : PointerTable) (fieldsAt : Var → List FieldRef) (c : Copy)
    (own : List Copy) : Prop where
  joined : ∀ v w, c.Joins t v w → FieldsCopied t' v w own (fieldsAt v)
  other : (∀ v w, ¬ c.Joins t v w) → own = []

/-- Each copy, right behind it those it brings. -/
inductive Interleaved (brings : Copy → List Copy → Prop) : List Copy → List Copy → Prop where
  | nil : Interleaved brings [] []
  | cons {c : Copy} {own cs cs' : List Copy} : brings c own → Interleaved brings cs cs' →
      Interleaved brings (c :: cs) (c :: own ++ cs')

theorem Interleaved.imp {p q : Copy → List Copy → Prop} (h : Interleaved p cs cs')
    (hpq : ∀ c ∈ cs, ∀ own, p c own → q c own) : Interleaved q cs cs' := by
  induction h with
  | nil => exact .nil
  | cons hc _ ih =>
    obtain ⟨hfirst, hrest⟩ := List.forall_mem_cons.1 hpq
    exact .cons (hfirst _ hc) (ih hrest)

theorem interleaved_self {p : Copy → List Copy → Prop} (h : ∀ c ∈ cs, p c []) :
    Interleaved p cs cs := by
  induction cs with
  | nil => exact .nil
  | cons c cs ih =>
    obtain ⟨hc, hcs⟩ := List.forall_mem_cons.1 h
    exact .cons hc (ih hcs)

/-- Erasing what was brought gives the copies back, and tells how many were brought. -/
theorem Interleaved.erase {p : Copy → List Copy → Prop} (h : Interleaved p cs cs')
    (hcs : ∀ c ∈ cs, c.origin ≠ .fieldCopy)
    (hown : ∀ c own, p c own → ∀ c' ∈ own, c'.origin = .fieldCopy) :
    cs'.filter (·.origin ≠ .fieldCopy) = cs ∧
      cs'.length = cs.length + (cs'.filter (·.origin = .fieldCopy)).length := by
  induction h with
  | nil => exact ⟨rfl, rfl⟩
  | @cons c own cs cs' hc _ ih =>
    obtain ⟨hfirst, hrest⟩ := List.forall_mem_cons.1 hcs
    obtain ⟨ihsame, ihlength⟩ := ih hrest
    have hnone : own.filter (·.origin ≠ .fieldCopy) = [] := by
      refine List.filter_eq_nil_iff.2 fun c' hc' => ?_
      simpa using hown c own hc c' hc'
    have hall : own.filter (·.origin = .fieldCopy) = own := by
      refine List.filter_eq_self.2 fun c' hc' => ?_
      simpa using hown c own hc c' hc'
    constructor
    · rw [List.cons_append, List.filter_cons_of_pos (by simpa using hfirst), List.filter_append,
        hnone, List.nil_append, ihsame]
    · rw [List.cons_append, List.filter_cons_of_neg (by simpa using hfirst), List.filter_append,
        hall]
      simp only [List.length_cons, List.length_append, ihlength]
      omega

theorem Copy.Brings.fieldCopy (h : c.Brings t t' fieldsAt own) :
    ∀ c' ∈ own, c'.origin = .fieldCopy := by
  by_cases hjoins : ∃ v w, c.Joins t v w
  · obtain ⟨v, w, hjoins⟩ := hjoins
    exact ((List.forall₂_and_left _ _).1 (h.joined v w hjoins)).1
  · rw [h.other (by simpa using hjoins)]
    exact List.forall_mem_nil _

theorem Copy.Joins.mono (h : c.Joins t v w) (hle : t ≤ u) : c.Joins u v w := ⟨h.1, h.2.mono hle⟩

theorem Copy.Named.joins_iff (h : c.Named t) (hle : t ≤ u) : c.Joins u v w ↔ c.Joins t v w := by
  refine ⟨fun hjoins => ?_, fun hjoins => hjoins.mono hle⟩
  obtain ⟨⟨p, q⟩, hn⟩ := h
  cases Option.some.inj ((hn.mono hle).1.symm.trans hjoins.2.1)
  cases Option.some.inj ((hn.mono hle).2.symm.trans hjoins.2.2)
  exact ⟨hjoins.1, hn⟩

theorem fieldCopies_copied (v w : Var) (t : PointerTable) (fs : List FieldRef) :
    FieldsCopied (fieldCopies v w t fs).2 v w (fieldCopies v w t fs).1 fs := by
  have hnames := (fieldCopies_spec v w t fs).2
  rw [List.forall₂_map_right_iff] at hnames
  refine (List.forall₂_and_left _ _).2 ⟨?_, hnames⟩
  clear hnames
  induction fs generalizing t with
  | nil => exact List.forall_mem_nil _
  | cons f fs ih => exact List.forall_mem_cons.2 ⟨rfl, ih _⟩

theorem FieldsCopied.mono {fs : List FieldRef} (h : FieldsCopied t v w own fs) (hle : t ≤ u) :
    FieldsCopied u v w own fs :=
  List.Forall₂.imp (fun _ _ hc => ⟨hc.1, hc.2.mono hle⟩) h

theorem Copy.Brings.mono (h : c.Brings t t' fieldsAt own) (hle : t' ≤ u) :
    c.Brings t u fieldsAt own where
  joined v w hvw := (h.joined v w hvw).mono hle
  other := h.other

def FieldGiven (fieldsAt : Var → List FieldRef) (p : Pointer) : Prop :=
  ∃ v f, p = .instanceField v f ∧ f ∈ fieldsAt v

theorem numbers_fieldCopies (v w : Var) (hsame : fieldsAt v = fieldsAt w) {fs : List FieldRef}
    (hfs : fs ⊆ fieldsAt v) : Numbers (FieldGiven fieldsAt) (fieldCopies v w · fs) := by
  induction fs with
  | nil => exact .pure _
  | cons f fs ih =>
    obtain ⟨hf, hfs⟩ := List.cons_subset.1 hfs
    have hv : FieldGiven fieldsAt (.instanceField v f) := ⟨v, f, rfl, hf⟩
    have hw : FieldGiven fieldsAt (.instanceField w f) := ⟨w, f, rfl, hsame ▸ hf⟩
    exact .bind (.intern hv) fun n => .bind (.intern hw) fun m => .bind (ih hfs) fun rest =>
      .pure (⟨n, m, .fieldCopy⟩ :: rest)

def SameFields (t : PointerTable) (fieldsAt : Var → List FieldRef) (cs : List Copy) : Prop :=
  ∀ c ∈ cs, ∀ v w, c.Joins t v w → fieldsAt v = fieldsAt w

theorem inserted_brings {found : Option (Var × Var)} (hle : t ≤ u) (hc : c.Named t)
    (hsame : ∀ v w, c.Joins t v w → fieldsAt v = fieldsAt w)
    (hfound : u.variablePair c = .ok found) :
    c.Brings t (inserted fieldsAt u found).2 fieldsAt (inserted fieldsAt u found).1 ∧
      ∀ p ∈ (inserted fieldsAt u found).2.pointers, p ∈ u.pointers ∨ FieldGiven fieldsAt p := by
  have hjoins : ∀ v w, c.Joins t v w ↔ found = some (v, w) := by
    intro v w
    rw [← hc.joins_iff hle, ← variablePair_eq_some, hfound, Except.ok.injEq]
  cases found with
  | none =>
    have hnot : ∀ v w, ¬ c.Joins t v w := fun v w h => nomatch (hjoins v w).1 h
    exact ⟨⟨fun v w h => absurd h (hnot v w), fun _ => rfl⟩, fun p hp => .inl hp⟩
  | some found =>
    obtain ⟨v, w⟩ := found
    have hvw := (hjoins v w).2 rfl
    refine ⟨⟨fun v' w' h => ?_, fun h => absurd hvw (h v w)⟩, ?_⟩
    · cases (hjoins v' w').1 h
      exact fieldCopies_copied v w u (fieldsAt v)
    · exact (numbers_fieldCopies v w (hsame v w hvw) (List.Subset.refl _)).adds u

/-- What inserting does to one list: the copies are brought, and nothing is numbered but given
fields. -/
theorem insertFieldCopies_brings (hle : t ≤ u) (hnamed : ∀ c ∈ cs, c.Named t)
    (hsame : SameFields t fieldsAt cs)
    (h : insertFieldCopies fieldsAt u added cs = .ok (cs', t', added')) :
    Interleaved (Copy.Brings t t' fieldsAt) cs cs' ∧
      ∀ p ∈ t'.pointers, p ∈ u.pointers ∨ FieldGiven fieldsAt p := by
  induction cs generalizing u added cs' with
  | nil =>
    cases pure_eq_ok.1 h
    exact ⟨.nil, fun p hp => .inl hp⟩
  | cons c cs ih =>
    obtain ⟨hc, hcs⟩ := List.forall_mem_cons.1 hnamed
    obtain ⟨hsamec, hsame⟩ := List.forall_mem_cons.1 hsame
    rw [insertFieldCopies_cons] at h
    obtain ⟨found, hfound, h⟩ := bind_eq_ok.1 h
    obtain ⟨⟨rest, t₂, added₂⟩, hrest, h⟩ := bind_eq_ok.1 h
    cases pure_eq_ok.1 h
    have hle₁ := (inserted_spec fieldsAt hfound).1
    have hle₂ := (insertFieldCopies_spec hrest).1
    obtain ⟨hfirst, hadds₁⟩ := inserted_brings hle hc hsamec hfound
    obtain ⟨hbrings, hadds₂⟩ := ih (PointerTable.le_trans hle hle₁) hcs hsame hrest
    refine ⟨.cons (hfirst.mono hle₂) hbrings, fun p hp => ?_⟩
    rcases hadds₂ p hp with hp | hp
    · exact hadds₁ p hp
    · exact .inr hp

/-- The counter goes up by the number of inserted copies. -/
theorem insertFieldCopies_added
    (h : insertFieldCopies fieldsAt u added cs = .ok (cs', t', added')) :
    cs'.length + added = cs.length + added' := by
  induction cs generalizing u added cs' with
  | nil =>
    cases pure_eq_ok.1 h
    rfl
  | cons c cs ih =>
    rw [insertFieldCopies_cons] at h
    obtain ⟨found, -, h⟩ := bind_eq_ok.1 h
    obtain ⟨⟨rest, t₂, added₂⟩, hrest, h⟩ := bind_eq_ok.1 h
    cases pure_eq_ok.1 h
    have hcounted := ih hrest
    simp only [List.length_append, List.length_cons]
    omega

structure Block.Filled (t t' : PointerTable) (fieldsAt : Var → List FieldRef) (b b' : Block) :
    Prop where
  same : b' = { b with copies := b'.copies }
  copies : Interleaved (Copy.Brings t t' fieldsAt) b.copies b'.copies

theorem insertInBlocks_brings {bs bs' : List Block} (hle : t ≤ u)
    (hnamed : ∀ b ∈ bs, ∀ c ∈ b.copies, c.Named t)
    (hsame : ∀ b ∈ bs, SameFields t fieldsAt b.copies)
    (h : insertInBlocks fieldsAt u added bs = .ok (bs', t', added')) :
    List.Forall₂ (Block.Filled t t' fieldsAt) bs bs' ∧
      ∀ p ∈ t'.pointers, p ∈ u.pointers ∨ FieldGiven fieldsAt p := by
  induction bs generalizing u added bs' with
  | nil =>
    cases pure_eq_ok.1 h
    exact ⟨.nil, fun p hp => .inl hp⟩
  | cons b bs ih =>
    obtain ⟨hb, hbs⟩ := List.forall_mem_cons.1 hnamed
    obtain ⟨hsameb, hsame⟩ := List.forall_mem_cons.1 hsame
    obtain ⟨⟨copies, t₁, added₁⟩, hcopies, h⟩ := bind_eq_ok.1 h
    obtain ⟨⟨rest, t₂, added₂⟩, hrest, h⟩ := bind_eq_ok.1 h
    cases pure_eq_ok.1 h
    have hle₁ := (insertFieldCopies_spec hcopies).1
    have hle₂ := (insertInBlocks_spec hrest).1
    obtain ⟨hbrings, hadds₁⟩ := insertFieldCopies_brings hle hb hsameb hcopies
    obtain ⟨hrest, hadds₂⟩ := ih (PointerTable.le_trans hle hle₁) hbs hsame hrest
    refine ⟨.cons ⟨rfl, hbrings.imp fun c _ own hown => hown.mono hle₂⟩ hrest, fun p hp => ?_⟩
    rcases hadds₂ p hp with hp | hp
    · exact hadds₁ p hp
    · exact .inr hp

theorem insertInBlocks_added {bs bs' : List Block}
    (h : insertInBlocks fieldsAt u added bs = .ok (bs', t', added')) :
    (bs'.flatMap (·.copies)).length + added = (bs.flatMap (·.copies)).length + added' := by
  induction bs generalizing u added bs' with
  | nil =>
    cases pure_eq_ok.1 h
    rfl
  | cons b bs ih =>
    obtain ⟨⟨copies, t₁, added₁⟩, hcopies, h⟩ := bind_eq_ok.1 h
    obtain ⟨⟨rest, t₂, added₂⟩, hrest, h⟩ := bind_eq_ok.1 h
    cases pure_eq_ok.1 h
    have hfirst := insertFieldCopies_added hcopies
    have hcounted := ih hrest
    simp only [List.flatMap_cons, List.length_append]
    omega

theorem Block.Filled.erase {b b' : Block} (h : b.Filled t t' fieldsAt b')
    (hfresh : ∀ c ∈ b.copies, c.origin ≠ .fieldCopy) :
    b'.copies.filter (·.origin ≠ .fieldCopy) = b.copies ∧
      b'.copies.length = b.copies.length + (b'.copies.filter (·.origin = .fieldCopy)).length :=
  h.copies.erase hfresh fun _ _ hc => hc.fieldCopy

theorem filled_refl (h : ∀ v, fieldsAt v = []) (t : PointerTable) (bs : List Block) :
    List.Forall₂ (Block.Filled t t fieldsAt) bs bs :=
  List.forall₂_same.2 fun _ _ =>
    ⟨rfl, interleaved_self fun _ _ => ⟨fun v _ _ => h v ▸ .nil, fun _ => rfl⟩⟩

theorem erase_filled {bs bs' : List Block} (h : List.Forall₂ (Block.Filled t t' fieldsAt) bs bs')
    (hfresh : ∀ b ∈ bs, ∀ c ∈ b.copies, c.origin ≠ .fieldCopy) :
    bs'.map (fun b => b.copies.filter (·.origin ≠ .fieldCopy)) = bs.map (·.copies) := by
  induction h with
  | nil => rfl
  | cons hb _ ih =>
    obtain ⟨hfirst, hrest⟩ := List.forall_mem_cons.1 hfresh
    exact congrArg₂ List.cons (hb.erase hfirst).1 (ih hrest)

theorem length_filled {bs bs' : List Block} (h : List.Forall₂ (Block.Filled t t' fieldsAt) bs bs')
    (hfresh : ∀ b ∈ bs, ∀ c ∈ b.copies, c.origin ≠ .fieldCopy) :
    (bs'.flatMap (·.copies)).length = (bs.flatMap (·.copies)).length +
      ((bs'.flatMap (·.copies)).filter (·.origin = .fieldCopy)).length := by
  induction h with
  | nil => rfl
  | cons hb _ ih =>
    obtain ⟨hfirst, hrest⟩ := List.forall_mem_cons.1 hfresh
    have := (hb.erase hfirst).2
    have := ih hrest
    simp only [List.flatMap_cons, List.length_append, List.filter_append]
    omega

section Propagate

variable {d : Draft} {p : Propagated}

/-- One pass is a pure insertion and the whole closure: behind each copy between variables stand the
copies of just the fields that the final table has for a connected variable. -/
structure Draft.Closed (d : Draft) (t : PointerTable) (fieldsAt : Var → OrderedSet FieldRef)
    (p : Propagated) : Prop where
  fields : ∀ v w, d.Links t v w → ∀ f,
    f ∈ fieldsAt v ↔ ∃ u, d.Connected t v u ∧ f ∈ p.table.fieldsOf u
  table : t ≤ p.table
  succs : p.draft.succs = d.succs
  blocks : List.Forall₂ (Block.Filled t p.table fun v => (fieldsAt v).toList) d.blocks.toList
    p.draft.blocks.toList
  erased : p.draft.blocks.toList.map (fun b => b.copies.filter (·.origin ≠ .fieldCopy)) =
    d.blocks.toList.map (·.copies)
  added : p.added =
    ((p.draft.blocks.toList.flatMap (·.copies)).filter (·.origin = .fieldCopy)).length

theorem links_iff {pairs : List (Var × Var)}
    (h : (d.blocks.toList.flatMap (·.copies)).filterMapM t.variablePair = .ok pairs) :
    d.Links t v w ↔ (v, w) ∈ pairs := by
  rw [mem_filterMapM h]
  simp only [List.mem_flatMap, variablePair_eq_some, Array.mem_toList_iff]
  constructor
  · rintro ⟨b, hb, c, hc, hjoins⟩
    exact ⟨c, ⟨b, hb, hc⟩, hjoins⟩
  · rintro ⟨c, ⟨b, hb, hc⟩, hjoins⟩
    exact ⟨b, hb, c, hc, hjoins⟩

/-- The fields that are given are those of the final table, if only given fields were numbered. -/
theorem fields_closed {fields : Var → List FieldRef}
    (hgiven : ∀ v w, d.Links t v w → ∀ f,
      f ∈ fields v ↔ ∃ u, d.Connected t v u ∧ f ∈ t.fieldsOf u)
    (hsame : ∀ v w, d.Connected t v w → fields v = fields w) (hle : t ≤ t')
    (hadds : ∀ p ∈ t'.pointers, p ∈ t.pointers ∨ FieldGiven fields p) (hvw : d.Links t v w)
    (f : FieldRef) : f ∈ fields v ↔ ∃ u, d.Connected t v u ∧ f ∈ t'.fieldsOf u := by
  constructor
  · intro hf
    obtain ⟨u, hu, hf⟩ := (hgiven v w hvw f).1 hf
    refine ⟨u, hu, PointerTable.mem_fieldsOf_iff.2 ?_⟩
    exact Array.mem_toList_iff.1 (List.IsPrefix.subset hle
      (Array.mem_toList_iff.2 (PointerTable.mem_fieldsOf_iff.1 hf)))
  · rintro ⟨u, hu, hf⟩
    rcases hadds _ (PointerTable.mem_fieldsOf_iff.1 hf) with hold | ⟨u', f', heq, hf'⟩
    · exact (hgiven v w hvw f).2 ⟨u, hu, PointerTable.mem_fieldsOf_iff.2 hold⟩
    · cases heq
      exact hsame v u hu ▸ hf'

theorem joined_components {pairs : List (Var × Var)}
    (h : (d.blocks.toList.flatMap (·.copies)).filterMapM t.variablePair = .ok pairs)
    {cs : Components} (hcs : pairs.foldl Components.connect .empty = cs) :
    d.Shares t (cs.fieldsAt t) ∧ ∀ v w, d.Links t v w → ∀ f,
      f ∈ cs.fieldsAt t v ↔ ∃ u, d.Connected t v u ∧ f ∈ t.fieldsOf u := by
  have hwithin : cs.Within (d.Links t) :=
    hcs ▸ (Components.within_empty _).foldl_connect fun pair hpair => (links_iff h).2 hpair
  have htogether : ∀ v w, d.Links t v w → cs.Together v w := by
    intro v w hvw
    exact hcs ▸ (Components.foldl_connect UnionFind.empty_wellFormed).2 _ ((links_iff h).1 hvw)
  have hshares : d.Shares t (cs.fieldsAt t) := Components.shares htogether
  refine ⟨hshares, fun v w hvw f => ?_⟩
  constructor
  · intro hf
    obtain ⟨u, hu, hf⟩ := hwithin.mem_fieldsAt_iff.1 hf
    exact ⟨u, hwithin.related v u hu, hf⟩
  · rintro ⟨u, hu, hf⟩
    exact hshares.used v w u f (.symm _ _ hu) hvw hf

/-- What the pass does, told with the fields of the sets that it works with. -/
theorem propagateFields_fills (hnamed : ∀ b ∈ d.blocks.toList, ∀ c ∈ b.copies, c.Named t)
    (h : propagateFields d t = .ok p) :
    ∃ cs : Components, d.Shares t (cs.fieldsAt t) ∧
      (∀ v w, d.Links t v w → ∀ f,
        f ∈ cs.fieldsAt t v ↔ ∃ u, d.Connected t v u ∧ f ∈ t.fieldsOf u) ∧
      t ≤ p.table ∧ (∀ q ∈ p.table.pointers, q ∈ t.pointers ∨ FieldGiven (cs.fieldsAt t) q) ∧
      p.draft.succs = d.succs ∧
      List.Forall₂ (Block.Filled t p.table (cs.fieldsAt t)) d.blocks.toList
        p.draft.blocks.toList ∧
      (p.draft.blocks.toList.flatMap (·.copies)).length =
        (d.blocks.toList.flatMap (·.copies)).length + p.added := by
  obtain ⟨pairs, hpairs, h⟩ := bind_eq_ok.1 h
  obtain ⟨cs, hcs⟩ : ∃ cs, pairs.foldl Components.connect .empty = cs := ⟨_, rfl⟩
  obtain ⟨hshares, hfields⟩ := joined_components hpairs hcs
  refine ⟨cs, hshares, hfields, ?_⟩
  rw [hcs] at h
  extract_lets components fields extended at h
  split at h
  · next hempty =>
    cases pure_eq_ok.1 h
    have hnone : ∀ v, cs.fieldsAt t v = [] := by
      intro v
      have hfields : cs.fields t = [] := List.isEmpty_iff.1 hempty
      rw [Components.fieldsAt, hfields]
      cases cs.rootOf v <;> rfl
    exact ⟨t.le_refl, fun q hq => .inl hq, rfl, filled_refl hnone t _, rfl⟩
  · obtain ⟨⟨blocks, table, added⟩, hblocks, h⟩ := bind_eq_ok.1 h
    cases pure_eq_ok.1 h
    have hsame : ∀ b ∈ d.blocks.toList, SameFields t (cs.fieldsAt t) b.copies := by
      intro b hb c hc v w hjoins
      exact hshares.same v w (.rel _ _ ⟨b, Array.mem_toList_iff.1 hb, c, hc, hjoins⟩)
    obtain ⟨hfilled, hadds⟩ := insertInBlocks_brings t.le_refl hnamed hsame hblocks
    exact ⟨(insertInBlocks_spec hblocks).1, hadds, rfl, hfilled, insertInBlocks_added hblocks⟩

/-- One run of the pass reaches the closure, however far apart the variables that are connected
are. -/
theorem propagateFields_closes (hnamed : ∀ b ∈ d.blocks, ∀ c ∈ b.copies, c.Named t)
    (hfresh : ∀ b ∈ d.blocks, ∀ c ∈ b.copies, c.origin ≠ .fieldCopy) :
    ∃ p fieldsAt, propagateFields d t = .ok p ∧ d.Closed t fieldsAt p := by
  obtain ⟨p, hp⟩ := propagateFields_ok hnamed
  simp only [← Array.mem_toList_iff] at hnamed hfresh
  obtain ⟨cs, hshares, hfields, htable, hadds, hsuccs, hfilled, hadded⟩ :=
    propagateFields_fills hnamed hp
  refine ⟨p, cs.fieldSet t, hp, ?_⟩
  constructor
  case fields =>
    intro v w hvw f
    rw [OrderedSet.mem_def, Components.toList_fieldSet]
    exact fields_closed hfields hshares.same htable hadds hvw f
  case table => exact htable
  case succs => exact hsuccs
  case blocks =>
    simp only [Components.toList_fieldSet]
    exact hfilled
  case erased => exact erase_filled hfilled hfresh
  case added =>
    have hlength := length_filled hfilled hfresh
    omega

end Propagate

def chainTable : PointerTable where
  pointers := #[.var ⟨0, 0⟩, .var ⟨0, 1⟩, .var ⟨0, 2⟩, .var ⟨0, 3⟩,
    .instanceField ⟨0, 2⟩ ⟨"A", "f"⟩]
  distinct := by decide

def chainDraft : Draft :=
  (Draft.empty.addBlock (.body 0 0 1 0) [⟨0, 1, .statement⟩, ⟨3, 4, .statement⟩] none).addBlock
    (.enter 0 1) [⟨2, 1, .call⟩] none

/-- The field gets to the first variable by way of the one between, for which it is numbered. -/
theorem chain_closes :
    ∃ p fieldsAt, propagateFields chainDraft chainTable = .ok p ∧
      chainDraft.Closed chainTable fieldsAt p ∧
      p.draft.blocks.toList.map (·.copies) =
        [[⟨0, 1, .statement⟩, ⟨5, 6, .fieldCopy⟩, ⟨3, 4, .statement⟩],
          [⟨2, 1, .call⟩, ⟨4, 6, .fieldCopy⟩]] ∧ p.added = 2 := by
  have hnamed : ∀ b ∈ chainDraft.blocks, ∀ c ∈ b.copies, c.Named chainTable := by
    have hall : ∀ b ∈ chainDraft.blocks, ∀ c ∈ b.copies,
        (chainTable.get? c.target).isSome ∧ (chainTable.get? c.source).isSome := by decide
    intro b hb c hc
    obtain ⟨htarget, hsource⟩ := hall b hb c hc
    obtain ⟨p, hp⟩ := Option.isSome_iff_exists.1 htarget
    obtain ⟨q, hq⟩ := Option.isSome_iff_exists.1 hsource
    exact ⟨(p, q), hp, hq⟩
  obtain ⟨p, fieldsAt, hp, hclosed⟩ := propagateFields_closes hnamed (by decide)
  obtain ⟨p', hp', hcopies⟩ : ∃ p, propagateFields chainDraft chainTable = .ok p ∧
      p.draft.blocks.toList.map (·.copies) =
        [[⟨0, 1, .statement⟩, ⟨5, 6, .fieldCopy⟩, ⟨3, 4, .statement⟩],
          [⟨2, 1, .call⟩, ⟨4, 6, .fieldCopy⟩]] ∧ p.added = 2 := exists_ok (by decide +kernel)
  cases hp.symm.trans hp'
  exact ⟨p, fieldsAt, hp, hclosed, hcopies⟩

end PointsTo
