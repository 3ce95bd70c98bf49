import Mathlib.Logic.Relation
import PointsTo.FieldCopies
import PointsTo.Proofs.Fault
import PointsTo.Proofs.Moves
import PointsTo.Proofs.UnionFind

/-! Which copies are inserted. Behind a copy between two variables come the copies of the fields
that are used through any variable connected with them. -/
namespace PointsTo

variable {t t' : PointerTable} {v w : Var} {f : FieldRef} {added added' : Nat}

/-- A copy between two variables. Copies that others imply do not count. -/
def Copy.Joins (t : PointerTable) (c : Copy) (v w : Var) : Prop :=
  c.origin ≠ .fieldCopy ∧ c.Names t (.var v, .var w)

theorem PointerTable.resolve_eq_ok {n : Nat} {p : Pointer} :
    t.resolve n = .ok p ↔ t.get? n = some p := orFault_eq_ok

theorem Pointer.var?_eq_some {p : Pointer} : p.var? = some v ↔ p = .var v := by
  cases p <;> simp [Pointer.var?]

theorem Pointer.fieldOf?_eq_some {v : Var} {f : FieldRef} {p : Pointer} :
    Pointer.fieldOf? v p = some f ↔ p = .instanceField v f := by
  cases p with
  | instanceField w g =>
    rw [Pointer.fieldOf?]
    split
    · next heq => rw [heq, Option.some.injEq, Pointer.instanceField.injEq, and_iff_right rfl]
    · next hne => simp [hne]
  | _ => simp [Pointer.fieldOf?]

theorem PointerTable.mem_fieldsOf_iff :
    f ∈ t.fieldsOf v ↔ .instanceField v f ∈ t.pointers := by
  rw [fieldsOf, OrderedSet.mem_ofList, List.mem_filterMap]
  simp only [Pointer.fieldOf?_eq_some, exists_eq_right, Array.mem_toList_iff]

theorem variablePair_eq_ok {c : Copy} {p q : Pointer} (hc : c.origin ≠ .fieldCopy)
    (hn : c.Names t (p, q)) :
    t.variablePair c = .ok (p.var?.bind fun v => q.var?.map (v, ·)) := by
  rw [PointerTable.variablePair, if_neg hc, PointerTable.resolve_eq_ok.2 hn.1, ok_bind]
  cases p.var? with
  | none => rfl
  | some v => rw [PointerTable.resolve_eq_ok.2 hn.2]; rfl

theorem variablePair_eq_some {c : Copy} :
    t.variablePair c = .ok (some (v, w)) ↔ c.Joins t v w := by
  constructor
  · intro h
    rw [PointerTable.variablePair] at h
    split at h
    · cases h
    next hc =>
    obtain ⟨p, hp, h⟩ := bind_eq_ok.1 h
    cases hv : p.var? with
    | none =>
      rw [hv] at h
      cases h
    | some v' =>
      rw [hv] at h
      obtain ⟨q, hq, h⟩ := bind_eq_ok.1 h
      obtain ⟨w', hw, heq⟩ := Option.map_eq_some_iff.1 (pure_eq_ok.1 h)
      cases heq
      rw [Pointer.var?_eq_some.1 hv, PointerTable.resolve_eq_ok] at hp
      rw [Pointer.var?_eq_some.1 hw, PointerTable.resolve_eq_ok] at hq
      exact ⟨hc, hp, hq⟩
  · rintro ⟨hc, hn⟩
    exact variablePair_eq_ok hc hn

def Copy.Named (t : PointerTable) (c : Copy) : Prop := ∃ pair, c.Names t pair

theorem variablePair_ok {c : Copy} (h : c.Named t) : ∃ found, t.variablePair c = .ok found := by
  obtain ⟨⟨p, q⟩, hn⟩ := h
  by_cases hc : c.origin = .fieldCopy
  · exact ⟨none, by rw [PointerTable.variablePair, if_pos hc]⟩
  · exact ⟨_, variablePair_eq_ok hc hn⟩

namespace Components

variable {cs : Components} {pair : Var × Var} {pairs : List (Var × Var)}

def Together (cs : Components) (v w : Var) : Prop :=
  ∃ r, cs.rootOf v = some r ∧ cs.rootOf w = some r

theorem index_spec (cs : Components) (v : Var) : (cs.index v).2.sets = cs.sets ∧
    (cs.index v).2.vars.idxOf? v = some (cs.index v).1 ∧
      ∀ w i, cs.vars.idxOf? w = some i → (cs.index v).2.vars.idxOf? w = some i := by
  unfold index
  cases hv : cs.vars.idxOf? v with
  | some i => exact ⟨rfl, hv, fun _ _ h => h⟩
  | none =>
    refine ⟨rfl, ?_, fun w i h => ?_⟩
    · rw [List.idxOf?, List.findIdx?_append]
      rw [List.idxOf?] at hv
      simp [hv]
    · rw [List.idxOf?, List.findIdx?_append]
      rw [List.idxOf?] at h
      simp [h]

theorem connect_spec (h : cs.sets.WellFormed) (pair : Var × Var) :
    (cs.connect pair).sets.WellFormed ∧ (cs.connect pair).Together pair.1 pair.2 ∧
      ∀ v w, cs.Together v w → (cs.connect pair).Together v w := by
  obtain ⟨hsets₁, hfirst, hold₁⟩ := index_spec cs pair.1
  obtain ⟨hsets₂, hsecond, hold₂⟩ := index_spec (cs.index pair.1).2 pair.2
  let i := (cs.index pair.1).1
  let j := ((cs.index pair.1).2.index pair.2).1
  have hunion : (cs.connect pair).sets = (cs.sets.union i j).2 := by
    rw [← hsets₁, ← hsets₂]
    rfl
  have hroot : ∀ v k, (cs.connect pair).vars.idxOf? v = some k →
      (cs.connect pair).rootOf v = some ((cs.sets.union i j).2.root k) := by
    intro v k hk
    rw [rootOf, hk, hunion]
    rfl
  refine ⟨hunion ▸ (UnionFind.union_spec h i j).wellFormed, ?_, ?_⟩
  · refine ⟨(cs.sets.union i j).2.root j, ?_, hroot _ _ hsecond⟩
    rw [← UnionFind.union_joins h i j]
    exact hroot _ _ (hold₂ _ _ hfirst)
  · rintro v w ⟨r, hv, hw⟩
    obtain ⟨a, ha, hra⟩ := Option.map_eq_some_iff.1 hv
    obtain ⟨b, hb, hrb⟩ := Option.map_eq_some_iff.1 hw
    refine ⟨(cs.sets.union i j).2.root b, ?_, hroot _ _ (hold₂ _ _ (hold₁ _ _ hb))⟩
    rw [← (UnionFind.union_spec h i j).keeps (hra.trans hrb.symm)]
    exact hroot _ _ (hold₂ _ _ (hold₁ _ _ ha))

theorem foldl_connect (h : cs.sets.WellFormed) :
    (∀ v w, cs.Together v w → (pairs.foldl connect cs).Together v w) ∧
      ∀ pair ∈ pairs, (pairs.foldl connect cs).Together pair.1 pair.2 := by
  induction pairs generalizing cs with
  | nil => exact ⟨fun _ _ h => h, by simp⟩
  | cons pair pairs ih =>
    obtain ⟨hwf, hpair, hkeep⟩ := connect_spec h pair
    obtain ⟨hkeep', hpairs⟩ := ih hwf
    refine ⟨fun v w hvw => hkeep' v w (hkeep v w hvw), List.forall_mem_cons.2 ⟨?_, hpairs⟩⟩
    exact hkeep' _ _ hpair

theorem lookup_map_pair {α β : Type} [DecidableEq α] {xs : List α} {g : α → β} {x : α}
    (hx : x ∈ xs) : (xs.map fun y => (y, g y)).lookup x = some (g x) := by
  induction xs with
  | nil => cases hx
  | cons y ys ih =>
    rw [List.map_cons, List.lookup_cons]
    by_cases hxy : x = y
    · simp [hxy]
    · have hne : (x == y) = false := by simpa using hxy
      rw [hne]
      exact ih ((List.mem_cons.1 hx).resolve_left hxy)

theorem mem_foldl_union {used : List (Nat × OrderedSet FieldRef)} {root : Nat}
    {init : OrderedSet FieldRef} :
    f ∈ used.foldl (fun fs (r, own) => if r = root then fs ∪ own else fs) init ↔
      f ∈ init ∨ ∃ own, (root, own) ∈ used ∧ f ∈ own := by
  induction used generalizing init with
  | nil => simp
  | cons entry used ih =>
    obtain ⟨r, own⟩ := entry
    rw [List.foldl_cons, ih]
    by_cases hr : r = root
    · subst hr
      simp only [if_pos, OrderedSet.mem_union, List.mem_cons, Prod.mk.injEq, true_and]
      grind
    · simp only [if_neg hr, List.mem_cons, Prod.mk.injEq, Ne.symm hr, false_and, false_or]

def fieldsAt (cs : Components) (t : PointerTable) (v : Var) : List FieldRef :=
  (((cs.rootOf v).bind fun r => (cs.fields t).lookup r).map OrderedSet.toList).getD []

theorem fields_eq (cs : Components) (t : PointerTable) : ∃ used : List (Nat × OrderedSet FieldRef),
    (cs.fields t = (used.map (·.1)).eraseDups.map fun root =>
      (root, used.foldl (fun fs (r, own) => if r = root then fs ∪ own else fs) ∅)) ∧
    ∀ v r, cs.rootOf v = some r → ∀ f ∈ t.fieldsOf v, (r, t.fieldsOf v) ∈ used := by
  refine ⟨_, rfl, fun v r hv f hf => List.mem_filter.2 ⟨?_, ?_⟩⟩
  · obtain ⟨i, hi, rfl⟩ := Option.map_eq_some_iff.1 hv
    obtain ⟨hlt, hget, -⟩ := List.idxOf?_eq_some_iff.1 hi
    refine List.mem_map.2 ⟨(v, i), ?_, rfl⟩
    rw [List.mem_zipIdx_iff_getElem?, List.getElem?_eq_getElem hlt, hget]
  · have hsome : (t.fieldsOf v).isEmpty = false :=
      List.isEmpty_eq_false_iff_exists_mem.2 ⟨f, hf⟩
    simp [hsome]

theorem mem_fieldsAt {r : Nat} (hv : cs.rootOf v = some r) (hf : f ∈ t.fieldsOf v) :
    f ∈ cs.fieldsAt t v := by
  obtain ⟨used, hfields, hused⟩ := cs.fields_eq t
  have hmem := hused v r hv f hf
  have hroot : r ∈ (used.map (·.1)).eraseDups :=
    List.mem_eraseDups.2 (List.mem_map.2 ⟨_, hmem, rfl⟩)
  rw [fieldsAt, hv, Option.bind_some, hfields, lookup_map_pair hroot, Option.map_some,
    Option.getD_some]
  exact mem_foldl_union.2 (Or.inr ⟨_, hmem, hf⟩)

theorem fieldsAt_congr (h : cs.Together v w) : cs.fieldsAt t v = cs.fieldsAt t w := by
  obtain ⟨r, hv, hw⟩ := h
  rw [fieldsAt, fieldsAt, hv, hw]

end Components

def withFields (fieldsAt : Var → List FieldRef) : Pointer × Pointer → List (Pointer × Pointer)
  | (.var v, .var w) =>
    (.var v, .var w) :: (fieldsAt v).map fun f => (.instanceField v f, .instanceField w f)
  | pair => [pair]

section Origins

variable {fieldsAt : Var → List FieldRef} {ms : List (Var × Var)}

theorem origin_fields {fs : List FieldRef} (hf : f ∈ fs) :
    origin (fs.map fun g => (Pointer.instanceField v g, Pointer.instanceField w g))
      (.instanceField v f) = .instanceField w f := by
  induction fs with
  | nil => cases hf
  | cons g gs ih =>
    rw [List.map_cons, origin]
    by_cases hmem : f ∈ gs
    · rw [ih hmem]
      split
      · next heq => cases heq; rfl
      · rfl
    · obtain rfl := (List.mem_cons.1 hf).resolve_right hmem
      rw [origin_of_fixed fun m hm heq => ?_, if_pos rfl]
      obtain ⟨g, hg, rfl⟩ := List.mem_map.1 hm
      cases heq
      exact absurd hg hmem

theorem origin_withFields_var (u : Var) :
    origin ((Pointer.ofVars ms).flatMap (withFields fieldsAt)) (.var u) =
      .var (origin ms u) := by
  induction ms with
  | nil => rfl
  | cons m ms ih =>
    have hfields : origin ((fieldsAt m.1).map fun f =>
        (Pointer.instanceField m.1 f, Pointer.instanceField m.2 f)) (.var (origin ms u)) =
        .var (origin ms u) := by
      refine origin_of_fixed fun n hn heq => ?_
      obtain ⟨f, -, rfl⟩ := List.mem_map.1 hn
      cases heq
    change origin (withFields fieldsAt (.var m.1, .var m.2) ++
      (Pointer.ofVars ms).flatMap (withFields fieldsAt)) _ = _
    rw [origin_append, ih, withFields, origin, hfields, origin]
    simp only [Pointer.var.injEq]
    split <;> rfl

/-- A field goes where its variable goes, if the moves keep to variables with the field. -/
theorem origin_withFields_field (hms : ∀ m ∈ ms, f ∈ fieldsAt m.1 ↔ f ∈ fieldsAt m.2) {u : Var}
    (hu : f ∈ fieldsAt u) :
    origin ((Pointer.ofVars ms).flatMap (withFields fieldsAt)) (.instanceField u f) =
      .instanceField (origin ms u) f ∧ f ∈ fieldsAt (origin ms u) := by
  induction ms with
  | nil => exact ⟨rfl, hu⟩
  | cons m ms ih =>
    obtain ⟨hm, hms⟩ := List.forall_mem_cons.1 hms
    obtain ⟨heq, hmem⟩ := ih hms
    have hne : ∀ v, Pointer.instanceField v f ≠ .var m.1 := by
      intro v heq
      cases heq
    change origin (withFields fieldsAt (.var m.1, .var m.2) ++
      (Pointer.ofVars ms).flatMap (withFields fieldsAt)) _ = _ ∧ _
    rw [origin_append, heq, withFields, origin, origin]
    by_cases hsame : origin ms u = m.1
    · rw [if_pos hsame, hsame]
      rw [hsame] at hmem
      rw [origin_fields hmem, if_neg (hne _)]
      exact ⟨rfl, hm.1 hmem⟩
    · rw [if_neg hsame, origin_of_fixed fun n hn heq => ?_, if_neg (hne _)]
      · exact ⟨rfl, hmem⟩
      · obtain ⟨g, -, rfl⟩ := List.mem_map.1 hn
        exact absurd (Pointer.instanceField.inj heq).1.symm hsame

end Origins

theorem fieldCopies_spec (target source : Var) (t : PointerTable) (fs : List FieldRef) :
    t ≤ (fieldCopies target source t fs).2 ∧
      List.Forall₂ (Copy.Names (fieldCopies target source t fs).2)
        (fieldCopies target source t fs).1
        (fs.map fun f => (.instanceField target f, .instanceField source f)) := by
  induction fs generalizing t with
  | nil => exact ⟨t.le_refl, .nil⟩
  | cons f fs ih =>
    let t₁ := (t.intern (.instanceField target f)).2
    let t₂ := (t₁.intern (.instanceField source f)).2
    obtain ⟨hle, hrest⟩ := ih t₂
    have h₁ : t ≤ t₁ := t.le_intern _
    have h₂ : t₁ ≤ t₂ := t₁.le_intern _
    have htarget := PointerTable.get?_of_le (PointerTable.le_trans h₂ hle) (t.get?_intern _)
    have hsource := PointerTable.get?_of_le hle (t₁.get?_intern _)
    exact ⟨PointerTable.le_trans h₁ (PointerTable.le_trans h₂ hle), .cons ⟨htarget, hsource⟩ hrest⟩

section Insert

variable {fieldsAt : Var → List FieldRef} {c : Copy} {cs cs' : List Copy}

def inserted (fieldsAt : Var → List FieldRef) (t : PointerTable) :
    Option (Var × Var) → List Copy × PointerTable
  | none => ([], t)
  | some (target, source) => fieldCopies target source t (fieldsAt target)

theorem insertFieldCopies_cons (fieldsAt : Var → List FieldRef) (t : PointerTable) (added : Nat)
    (c : Copy) (cs : List Copy) : insertFieldCopies fieldsAt t added (c :: cs) = do
      let found ← t.variablePair c
      let (rest, t', added') ← insertFieldCopies fieldsAt (inserted fieldsAt t found).2
        (added + (inserted fieldsAt t found).1.length) cs
      return (c :: (inserted fieldsAt t found).1 ++ rest, t', added') := by
  rw [insertFieldCopies]
  congr
  funext found
  cases found <;> rfl

theorem inserted_spec (fieldsAt : Var → List FieldRef) {found : Option (Var × Var)}
    (hfound : t.variablePair c = .ok found) :
    t ≤ (inserted fieldsAt t found).2 ∧ ∀ pair, c.Names t pair → c.origin ≠ .fieldCopy →
      List.Forall₂ (Copy.Names (inserted fieldsAt t found).2)
        (c :: (inserted fieldsAt t found).1) (withFields fieldsAt pair) := by
  cases found with
  | none =>
    refine ⟨t.le_refl, fun (p, q) hn hc => ?_⟩
    rw [variablePair_eq_ok hc hn] at hfound
    cases p <;> cases q <;> first | exact .cons hn .nil | simp [Pointer.var?] at hfound
  | some found =>
    obtain ⟨v, w⟩ := found
    obtain ⟨hle, hown⟩ := fieldCopies_spec v w t (fieldsAt v)
    obtain ⟨-, htarget, hsource⟩ := variablePair_eq_some.1 hfound
    refine ⟨hle, fun (p, q) hn _ => ?_⟩
    cases Option.some.inj (hn.1.symm.trans htarget)
    cases Option.some.inj (hn.2.symm.trans hsource)
    exact .cons (hn.mono hle) hown

theorem insertFieldCopies_spec
    (h : insertFieldCopies fieldsAt t added cs = .ok (cs', t', added')) :
    t ≤ t' ∧ ∀ pairs, List.Forall₂ (Copy.Names t) cs pairs → (∀ c ∈ cs, c.origin ≠ .fieldCopy) →
      List.Forall₂ (Copy.Names t') cs' (pairs.flatMap (withFields fieldsAt)) := by
  induction cs generalizing t added cs' with
  | nil =>
    cases pure_eq_ok.1 h
    refine ⟨PointerTable.le_refl _, fun pairs hn _ => ?_⟩
    cases hn
    exact .nil
  | cons c cs ih =>
    rw [insertFieldCopies_cons] at h
    obtain ⟨found, hfound, h⟩ := bind_eq_ok.1 h
    obtain ⟨⟨rest, t₂, added₂⟩, hrest, h⟩ := bind_eq_ok.1 h
    cases pure_eq_ok.1 h
    obtain ⟨hle₁, hown⟩ := inserted_spec fieldsAt hfound
    obtain ⟨hle₂, hrest⟩ := ih hrest
    refine ⟨PointerTable.le_trans hle₁ hle₂, fun pairs hn hc => ?_⟩
    cases hn with
    | cons hpair hn =>
      obtain ⟨hc, hcs⟩ := List.forall_mem_cons.1 hc
      refine List.rel_append ?_ ?_
      · exact (hown _ hpair hc).imp fun _ _ hn => hn.mono hle₂
      · exact hrest _ (hn.imp fun _ _ hn => hn.mono hle₁) hcs

theorem insertFieldCopies_ok (fieldsAt : Var → List FieldRef) (h : ∀ c ∈ cs, c.Named t) :
    ∃ r, insertFieldCopies fieldsAt t added cs = .ok r := by
  induction cs generalizing t added with
  | nil => exact ⟨([], t, added), rfl⟩
  | cons c cs ih =>
    obtain ⟨hc, hcs⟩ := List.forall_mem_cons.1 h
    obtain ⟨found, hfound⟩ := variablePair_ok hc
    have hle := (inserted_spec fieldsAt hfound).1
    obtain ⟨⟨rest, t', added'⟩, hrest⟩ : ∃ r, insertFieldCopies fieldsAt
        (inserted fieldsAt t found).2 (added + (inserted fieldsAt t found).1.length) cs = .ok r :=
      ih fun c hc => (hcs c hc).imp fun _ hn => hn.mono hle
    exact ⟨_, by rw [insertFieldCopies_cons, hfound, ok_bind, hrest]; rfl⟩

structure Block.Extends (fieldsAt : Var → List FieldRef) (t t' : PointerTable) (b b' : Block) :
    Prop where
  same : b' = { b with copies := b'.copies }
  copies : ∀ pairs, List.Forall₂ (Copy.Names t) b.copies pairs →
    (∀ c ∈ b.copies, c.origin ≠ .fieldCopy) →
      List.Forall₂ (Copy.Names t') b'.copies (pairs.flatMap (withFields fieldsAt))

theorem Block.Extends.widen {u u' : PointerTable} {b b' : Block}
    (h : b.Extends fieldsAt t t' b') (hle : u ≤ t) (hle' : t' ≤ u') :
    b.Extends fieldsAt u u' b' where
  same := h.same
  copies pairs hn hc := (h.copies pairs (hn.imp fun _ _ hn => hn.mono hle) hc).imp
    fun _ _ hn => hn.mono hle'

theorem insertInBlocks_ok (fieldsAt : Var → List FieldRef) {bs : List Block}
    (h : ∀ b ∈ bs, ∀ c ∈ b.copies, c.Named t) :
    ∃ r, insertInBlocks fieldsAt t added bs = .ok r := by
  induction bs generalizing t added with
  | nil => exact ⟨([], t, added), rfl⟩
  | cons b bs ih =>
    obtain ⟨hb, hbs⟩ := List.forall_mem_cons.1 h
    obtain ⟨⟨copies, t₁, added₁⟩, hcopies⟩ := insertFieldCopies_ok fieldsAt hb
    have hle := (insertFieldCopies_spec hcopies).1
    obtain ⟨⟨rest, t₂, added₂⟩, hrest⟩ : ∃ r, insertInBlocks fieldsAt t₁ added₁ bs = .ok r :=
      ih fun b hb c hc => (hbs b hb c hc).imp fun _ hn => hn.mono hle
    exact ⟨_, by rw [insertInBlocks, hcopies, ok_bind]; simp only [hrest, ok_bind]; rfl⟩

theorem insertInBlocks_spec {bs bs' : List Block}
    (h : insertInBlocks fieldsAt t added bs = .ok (bs', t', added')) :
    t ≤ t' ∧ List.Forall₂ (Block.Extends fieldsAt t t') bs bs' := by
  induction bs generalizing t added bs' with
  | nil =>
    cases pure_eq_ok.1 h
    exact ⟨PointerTable.le_refl _, .nil⟩
  | cons b bs ih =>
    obtain ⟨⟨copies, t₁, added₁⟩, hcopies, h⟩ := bind_eq_ok.1 h
    obtain ⟨⟨rest, t₂, added₂⟩, hrest, h⟩ := bind_eq_ok.1 h
    cases pure_eq_ok.1 h
    obtain ⟨hle₁, hcopies⟩ := insertFieldCopies_spec hcopies
    obtain ⟨hle₂, hrest⟩ := ih hrest
    refine ⟨PointerTable.le_trans hle₁ hle₂, .cons ?_ ?_⟩
    · exact Block.Extends.widen ⟨rfl, hcopies⟩ (PointerTable.le_refl _) hle₂
    · exact hrest.imp fun _ _ hb => hb.widen hle₁ (PointerTable.le_refl _)

def Draft.Links (d : Draft) (t : PointerTable) (v w : Var) : Prop :=
  ∃ b ∈ d.blocks, ∃ c ∈ b.copies, c.Joins t v w

def Draft.Connected (d : Draft) (t : PointerTable) : Var → Var → Prop := Relation.EqvGen (d.Links t)

/-- Connected variables have the same fields, and those used through any of them. -/
structure Draft.Shares (d : Draft) (t : PointerTable) (fieldsAt : Var → List FieldRef) : Prop where
  same : ∀ v w, d.Connected t v w → fieldsAt v = fieldsAt w
  used : ∀ v w u f, d.Connected t u v → d.Links t v w → f ∈ t.fieldsOf u → f ∈ fieldsAt v

structure Draft.Expands (d : Draft) (t : PointerTable) (fieldsAt : Var → List FieldRef)
    (d' : Draft) (t' : PointerTable) : Prop where
  table : t ≤ t'
  succs : d'.succs = d.succs
  blocks : List.Forall₂ (Block.Extends fieldsAt t t') d.blocks.toList d'.blocks.toList

end Insert

section Propagate

variable {d : Draft} {p : Propagated} {fieldsAt : Var → List FieldRef}

theorem flatMap_withFields_nil (h : ∀ v, fieldsAt v = []) (pairs : List (Pointer × Pointer)) :
    pairs.flatMap (withFields fieldsAt) = pairs := by
  have hpair : ∀ pair, withFields fieldsAt pair = [pair] := by
    rintro ⟨p, q⟩
    cases p <;> cases q <;> simp [withFields, h]
  rw [funext hpair, List.flatMap_singleton']

theorem Draft.expands_refl (d : Draft) (t : PointerTable) (h : ∀ v, fieldsAt v = []) :
    d.Expands t fieldsAt d t where
  table := t.le_refl
  succs := rfl
  blocks := List.forall₂_same.2 fun _ _ =>
    ⟨rfl, fun pairs hn _ => (flatMap_withFields_nil h pairs).symm ▸ hn⟩

/-- Sets that joined all linked variables tell which fields connected variables share. -/
theorem Components.shares {cs : Components}
    (h : ∀ v w, d.Links t v w → cs.Together v w) : d.Shares t (cs.fieldsAt t) := by
  have hsame : ∀ v w, d.Connected t v w →
      cs.fieldsAt t v = cs.fieldsAt t w ∧ ((cs.rootOf v).isSome ↔ (cs.rootOf w).isSome) := by
    intro v w hvw
    induction hvw with
    | rel v w hlink =>
      obtain ⟨r, hv, hw⟩ := h v w hlink
      exact ⟨fieldsAt_congr ⟨r, hv, hw⟩, by rw [hv, hw]⟩
    | refl v => exact ⟨rfl, Iff.rfl⟩
    | symm v w _ ih => exact ⟨ih.1.symm, ih.2.symm⟩
    | trans v w u _ _ ih ih' => exact ⟨ih.1.trans ih'.1, ih.2.trans ih'.2⟩
  constructor
  case same => exact fun v w hvw => (hsame v w hvw).1
  case used =>
    intro v w u f huv hvw hf
    obtain ⟨r, hv, -⟩ := h v w hvw
    obtain ⟨heq, hknown⟩ := hsame u v huv
    obtain ⟨s, hu⟩ := Option.isSome_iff_exists.1 (hknown.2 (by simp [hv]))
    exact heq ▸ mem_fieldsAt hu hf

theorem propagateFields_ok (h : ∀ b ∈ d.blocks, ∀ c ∈ b.copies, c.Named t) :
    ∃ p, propagateFields d t = .ok p := by
  have hcopies : ∀ c ∈ d.blocks.toList.flatMap (·.copies), c.Named t := by
    intro c hc
    obtain ⟨b, hb, hc⟩ := List.mem_flatMap.1 hc
    exact h b (Array.mem_toList_iff.1 hb) c hc
  obtain ⟨pairs, hpairs⟩ := filterMapM_ok fun c hc => variablePair_ok (hcopies c hc)
  rw [propagateFields, hpairs, ok_bind]
  extract_lets components fields extended
  split
  · exact ⟨_, rfl⟩
  · obtain ⟨⟨blocks, table, added⟩, hblocks⟩ := insertInBlocks_ok extended
      fun b hb => h b (Array.mem_toList_iff.1 hb)
    exact ⟨_, by rw [hblocks]; rfl⟩

theorem propagateFields_spec (h : propagateFields d t = .ok p) :
    ∃ fieldsAt, d.Expands t fieldsAt p.draft p.table ∧ d.Shares t fieldsAt := by
  obtain ⟨pairs, hpairs, h⟩ := bind_eq_ok.1 h
  obtain ⟨cs, hcs⟩ : ∃ cs, pairs.foldl Components.connect .empty = cs := ⟨_, rfl⟩
  have hshares : d.Shares t (cs.fieldsAt t) := by
    refine Components.shares fun v w ⟨b, hb, c, hc, hjoins⟩ => ?_
    have hcopy := List.mem_flatMap.2 ⟨b, Array.mem_toList_iff.2 hb, hc⟩
    have hpair := (mem_filterMapM hpairs).2 ⟨c, hcopy, variablePair_eq_some.2 hjoins⟩
    exact hcs ▸ (Components.foldl_connect UnionFind.empty_wellFormed).2 _ hpair
  refine ⟨cs.fieldsAt t, ?_, hshares⟩
  rw [hcs] at h
  extract_lets components fields extended at h
  split at h
  · next hempty =>
    cases pure_eq_ok.1 h
    refine d.expands_refl t fun v => ?_
    have hfields : cs.fields t = [] := List.isEmpty_iff.1 hempty
    rw [Components.fieldsAt, hfields]
    cases cs.rootOf v <;> rfl
  · obtain ⟨⟨blocks, table, added⟩, hblocks, h⟩ := bind_eq_ok.1 h
    cases pure_eq_ok.1 h
    obtain ⟨hle, hextends⟩ := insertInBlocks_spec hblocks
    exact ⟨hle, rfl, hextends⟩

end Propagate

end PointsTo
