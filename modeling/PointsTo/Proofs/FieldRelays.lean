import PointsTo.Proofs.Allocations
import PointsTo.Proofs.FieldClosure

/-! Fields travel with references. A reference may be copied from variable to variable, over blocks
and instances, and through variables whose fields no statement names. What its fields refer to
arrives with it, as long as nothing is copied to the field of a variable that it waits in. -/
namespace PointsTo

variable {t u : PointerTable} {fieldsAt : Var → List FieldRef} {f : FieldRef} {x y v w : Var}
  {c : Copy} {cs ds own own' : List Copy} {i j n m l : Nat}

/-- The place behind a copy and the field copies that stand right behind it. -/
def placeBehind (cs : List Copy) (i : Nat) : Nat :=
  i + 1 + ((cs.drop (i + 1)).takeWhile (·.origin = .fieldCopy)).length

/-- A reference is copied from `x` to `y`: the first copy stands at place `i`, and the last one ends
with its field copies before place `j`. Between two of the copies nothing is copied to the field of
the variable that was reached. -/
inductive Relay (t : PointerTable) (f : FieldRef) (cs : List Copy) :
    Var → Nat → Var → Nat → Prop where
  | copy {x y : Var} {i : Nat} {c : Copy} : cs[i]? = some c → c.Joins t y x →
      Relay t f cs x i y (placeBehind cs i)
  | onward {x y z : Var} {i j k : Nat} {c : Copy} : Relay t f cs x i y j → j ≤ k →
      (∀ l d, j ≤ l → l < k → cs[l]? = some d → t.get? d.target ≠ some (.instanceField y f)) →
      cs[k]? = some c → c.Joins t z y → Relay t f cs x i z (placeBehind cs k)

namespace Graph

/-- The graph that one pass over copies without field copies leaves behind, with its table. -/
def FieldsPropagated (g : Graph) (t : PointerTable) : Prop :=
  ∃ (d : Draft) (u : PointerTable) (p : Propagated) (entry : Nat) (exits : List Nat),
    (∀ b ∈ d.blocks, ∀ c ∈ b.copies, c.Named u) ∧
      (∀ b ∈ d.blocks, ∀ c ∈ b.copies, c.origin ≠ .fieldCopy) ∧
      propagateFields d u = .ok p ∧ p.draft.freeze entry exits = .ok g ∧ p.table = t

def Links (g : Graph) (t : PointerTable) (v w : Var) : Prop :=
  ∃ b, ∃ c ∈ g.copiesOf b, c.Joins t v w

def Connected (g : Graph) (t : PointerTable) : Var → Var → Prop := Relation.EqvGen (g.Links t)

def UsesField (g : Graph) (t : PointerTable) (v : Var) (f : FieldRef) : Prop :=
  ∃ w, g.Connected t v w ∧ f ∈ t.fieldsOf w

end Graph

section Interleaved

variable {brings : Copy → List Copy → Prop}

theorem placeBehind_append (as : List Copy) (ds : List Copy) (i : Nat) :
    placeBehind (as ++ ds) (as.length + i) = as.length + placeBehind ds i := by
  rw [placeBehind, placeBehind, Nat.add_assoc as.length, List.drop_append, List.drop_of_length_le
    (Nat.le_add_right _ _), Nat.add_sub_cancel_left, List.nil_append]
  omega

theorem Interleaved.append (h : Interleaved brings cs own) (k : Interleaved brings ds own') :
    Interleaved brings (cs ++ ds) (own ++ own') := by
  induction h with
  | nil => exact k
  | @cons c own cs cs' hc _ ih =>
    have := Interleaved.cons hc ih
    rwa [← List.append_assoc] at this

theorem Interleaved.subset (h : Interleaved brings cs ds) : cs ⊆ ds := by
  induction h with
  | nil => exact List.Subset.refl _
  | cons _ _ ih => exact List.cons_subset_cons _ (List.subset_append_of_subset_right _ ih)

theorem Interleaved.takeWhile_eq_nil (h : Interleaved brings cs ds)
    (hfresh : ∀ c ∈ cs, c.origin ≠ .fieldCopy) : ds.takeWhile (·.origin = .fieldCopy) = [] := by
  cases h with
  | nil => rfl
  | cons _ _ =>
    rw [List.cons_append, List.takeWhile_cons_of_neg]
    simpa using hfresh _ List.mem_cons_self

/-- Behind a copy that was there before stands what it brings, and then what was there before. -/
theorem Interleaved.behind (h : Interleaved brings cs ds)
    (hfresh : ∀ c ∈ cs, c.origin ≠ .fieldCopy)
    (hown : ∀ c own, brings c own → ∀ d ∈ own, d.origin = .fieldCopy) (hi : ds[i]? = some c)
    (hc : c.origin ≠ .fieldCopy) :
    c ∈ cs ∧ ∃ own rest, brings c own ∧ ds.drop i = (c :: own) ++ rest ∧
      placeBehind ds i = i + (c :: own).length := by
  induction h generalizing i with
  | nil => cases hi
  | @cons c₀ own₀ cs ds hc₀ hrest ih =>
    have hfresh' := (List.forall_mem_cons.1 hfresh).2
    rcases Nat.lt_or_ge i (c₀ :: own₀).length with hlt | hge
    · rw [List.getElem?_append_left hlt] at hi
      cases i with
      | zero =>
        cases hi
        refine ⟨List.mem_cons_self, own₀, ds, hc₀, rfl, ?_⟩
        have hall : ∀ d ∈ own₀, decide (d.origin = .fieldCopy) = true := by
          simpa using hown c own₀ hc₀
        rw [placeBehind, List.cons_append, List.drop_succ_cons, List.drop_zero,
          List.takeWhile_append_of_pos hall, hrest.takeWhile_eq_nil hfresh', List.append_nil,
          List.length_cons]
        omega
      | succ k => exact absurd (hown c₀ own₀ hc₀ c (List.mem_of_getElem? hi)) hc
    · obtain ⟨k, rfl⟩ := Nat.exists_eq_add_of_le hge
      rw [List.getElem?_append_right hge, Nat.add_sub_cancel_left] at hi
      obtain ⟨hmem, own, rest, hbrings, hdrop, hplace⟩ := ih hfresh' hi
      refine ⟨List.mem_cons_of_mem c₀ hmem, own, rest, hbrings, ?_, ?_⟩
      · rw [List.drop_append, List.drop_of_length_le hge, List.nil_append,
          Nat.add_sub_cancel_left, hdrop]
      · rw [placeBehind_append, hplace, Nat.add_assoc]

end Interleaved

theorem sourceOf_brought (hc : c.Names t (.var y, .var x))
    (hown : FieldsCopied t y x own (fieldsAt y)) (hf : f ∈ fieldsAt y) :
    ∃ n m, t.get? n = some (.instanceField x f) ∧ t.get? m = some (.instanceField y f) ∧
      sourceOf (c :: own) m = n := by
  have hnames : List.Forall₂ (Copy.Names t) (c :: own)
      (withFields fieldsAt (.var y, .var x)) := by
    refine .cons hc (List.forall₂_map_right_iff.2 ?_)
    exact hown.imp fun _ _ h => h.2
  have hpair : (Pointer.instanceField y f, Pointer.instanceField x f) ∈
      withFields fieldsAt (.var y, .var x) :=
    List.mem_cons_of_mem _ (List.mem_map.2 ⟨f, hf, rfl⟩)
  obtain ⟨d, hd, htarget, hsource⟩ := exists_named_copy hnames hpair
  refine ⟨d.source, d.target, hsource, htarget, PointerTable.get?_inj ?_ hsource⟩
  rw [get?_sourceOf hnames htarget, withFields, origin, origin_fields hf, if_neg]
  intro heq
  cases heq

section Graphs

variable {g : Graph} {bs : List Nat} {s : Facts}

theorem Graph.UsesField.of_links (h : g.UsesField t w f) (hvw : g.Links t v w) :
    g.UsesField t v f := by
  obtain ⟨k, hk, hf⟩ := h
  exact ⟨k, .trans _ _ _ (.rel _ _ hvw) hk, hf⟩

/-- Along any blocks, the copies of the graph are those that were there before with what each of
them brings. -/
theorem exists_interleaved {brings : Copy → List Copy → Prop} {old : Copy → Prop}
    (h : ∀ b, ∃ cs, Interleaved brings cs (g.copiesOf b) ∧ ∀ c ∈ cs, old c) (bs : List Nat) :
    ∃ cs, Interleaved brings cs (g.copiesAlong bs) ∧ ∀ c ∈ cs, old c := by
  induction bs with
  | nil => exact ⟨[], .nil, List.forall_mem_nil _⟩
  | cons b bs ih =>
    obtain ⟨cs, hcs, hold⟩ := h b
    obtain ⟨ds, hds, hold'⟩ := ih
    refine ⟨cs ++ ds, hcs.append hds, fun c hc => ?_⟩
    exact (List.mem_append.1 hc).elim (hold c) (hold' c)

structure Graph.Completed (g : Graph) (t : PointerTable) (fieldsAt : Var → List FieldRef) :
    Prop where
  fields : ∀ v w, g.Links t v w → ∀ f, f ∈ fieldsAt v ↔ g.UsesField t v f
  behind : ∀ bs i c v w, (g.copiesAlong bs)[i]? = some c → c.Joins t v w →
    ∃ own, FieldsCopied t v w own (fieldsAt v) ∧
      ((g.copiesAlong bs).drop i).take (own.length + 1) = c :: own ∧
        placeBehind (g.copiesAlong bs) i = i + (own.length + 1)

theorem Draft.Closed.copiesOf {d : Draft} {fieldsAt : Var → OrderedSet FieldRef} {p : Propagated}
    (h : d.Closed u fieldsAt p) (hg : g.blocks = p.draft.blocks) :
    (∀ b, ∃ cs, Interleaved (Copy.Brings u p.table fun v => (fieldsAt v).toList) cs
      (g.copiesOf b) ∧ ∀ c ∈ cs, ∃ block ∈ d.blocks, c ∈ block.copies) ∧
    ∀ block ∈ d.blocks, ∃ b, Interleaved (Copy.Brings u p.table fun v => (fieldsAt v).toList)
      block.copies (g.copiesOf b) := by
  have hcopies : ∀ (b : Nat) block, g.blocks[b]? = some block → g.copiesOf b = block.copies := by
    intro b block hb
    rw [Graph.copiesOf, hb, Option.map_some, Option.getD_some]
  constructor
  · intro b
    cases hb : g.blocks[b]? with
    | none =>
      refine ⟨[], ?_, List.forall_mem_nil _⟩
      rw [Graph.copiesOf, hb]
      exact .nil
    | some filled =>
      have hfilled := hb
      rw [hg, ← Array.getElem?_toList] at hfilled
      obtain ⟨block, hblock, hold⟩ := getElem?_forall₂ h.blocks.flip hfilled
      refine ⟨block.copies, ?_, fun c hc => ⟨block, ?_, hc⟩⟩
      · rw [hcopies b filled hb]
        exact hold.copies
      · exact Array.mem_toList_iff.1 (List.mem_of_getElem? hblock)
  · intro block hmem
    obtain ⟨b, hb⟩ := List.mem_iff_getElem?.1 (Array.mem_toList_iff.2 hmem)
    obtain ⟨filled, hfilled, hold⟩ := getElem?_forall₂ h.blocks hb
    rw [Array.getElem?_toList, ← hg] at hfilled
    refine ⟨b, ?_⟩
    rw [hcopies b filled hfilled]
    exact hold.copies

theorem Graph.FieldsPropagated.completed (h : g.FieldsPropagated t) :
    ∃ fieldsAt, g.Completed t fieldsAt := by
  obtain ⟨d, u, p, entry, exits, hnamed, hfresh, hp, hfreeze, rfl⟩ := h
  obtain ⟨p', fieldsAt, hp', hclosed⟩ := propagateFields_closes hnamed hfresh
  cases hp.symm.trans hp'
  have hsame : g.blocks = p.draft.blocks := (Draft.freeze_eq_ok.1 hfreeze).2 ▸ rfl
  obtain ⟨hblocks, hkept⟩ := hclosed.copiesOf hsame
  -- a copy between variables was there before, wherever a walk comes across it
  have hold : ∀ bs i c v w, (g.copiesAlong bs)[i]? = some c → c.Joins p.table v w →
      (∃ block ∈ d.blocks, c ∈ block.copies) ∧ c.Joins u v w ∧
        ∃ own rest, c.Brings u p.table (fun v => (fieldsAt v).toList) own ∧
          (g.copiesAlong bs).drop i = (c :: own) ++ rest ∧
          placeBehind (g.copiesAlong bs) i = i + (c :: own).length := by
    intro bs i c v w hi hc
    obtain ⟨cs, hcs, hold⟩ := exists_interleaved hblocks bs
    have hfresh' : ∀ c ∈ cs, c.origin ≠ .fieldCopy := by
      intro c hc
      obtain ⟨block, hblock, hc⟩ := hold c hc
      exact hfresh block hblock c hc
    obtain ⟨hmem, hbehind⟩ := hcs.behind hfresh' (fun _ _ h => h.fieldCopy) hi hc.1
    obtain ⟨block, hblock, hmem⟩ := hold c hmem
    exact ⟨⟨block, hblock, hmem⟩, ((hnamed block hblock c hmem).joins_iff hclosed.table).1 hc,
      hbehind⟩
  have hlinks : g.Links p.table = d.Links u := by
    funext v w
    apply propext
    constructor
    · rintro ⟨b, c, hmem, hc⟩
      obtain ⟨i, hi⟩ := List.mem_iff_getElem?.1 hmem
      rw [← Graph.copiesAlong_singleton] at hi
      obtain ⟨⟨block, hblock, hmem⟩, hc, -⟩ := hold [b] i c v w hi hc
      exact ⟨block, hblock, c, hmem, hc⟩
    · rintro ⟨block, hblock, c, hmem, hc⟩
      obtain ⟨b, hb⟩ := hkept block hblock
      exact ⟨b, c, hb.subset hmem, hc.mono hclosed.table⟩
  refine ⟨fun v => (fieldsAt v).toList, ?_, ?_⟩
  · intro v w hvw f
    rw [Graph.UsesField, Graph.Connected, hlinks]
    rw [hlinks] at hvw
    exact hclosed.fields v w hvw f
  · intro bs i c v w hi hc
    obtain ⟨-, hc, own, rest, hbrings, hdrop, hplace⟩ := hold bs i c v w hi hc
    refine ⟨own, hbrings.joined v w hc, ?_, hplace⟩
    rw [hdrop]
    exact List.take_left' rfl

theorem holds_take_of_untouched {cs : List Copy} {k : Nat} (hjk : j ≤ k)
    (h : ∀ i d, j ≤ i → i < k → cs[i]? = some d → d.target ≠ m) :
    (s.run (cs.take k)).Holds m l ↔ (s.run (cs.take j)).Holds m l := by
  obtain ⟨n, rfl⟩ := Nat.exists_eq_add_of_le hjk
  rw [List.take_add, Facts.run_append, Facts.holds_run, sourceOf_of_not_target]
  intro d hd
  obtain ⟨i, hi⟩ := List.mem_iff_getElem?.1 hd
  rw [List.getElem?_take] at hi
  split at hi
  · next hlt =>
    rw [List.getElem?_drop] at hi
    exact h (j + i) d (Nat.le_add_right j i) (Nat.add_lt_add_left hlt j) hi
  · cases hi

section Travel

variable (hg : g.Completed t fieldsAt)

include hg

theorem Graph.Completed.copied (hi : (g.copiesAlong bs)[i]? = some c) (hc : c.Joins t y x)
    (hf : g.UsesField t x f) : g.UsesField t y f ∧
      ∃ n m, t.get? n = some (.instanceField x f) ∧ t.get? m = some (.instanceField y f) ∧
        ∀ (s : Facts) l, (s.run ((g.copiesAlong bs).take (placeBehind (g.copiesAlong bs) i))).Holds
          m l ↔ (s.run ((g.copiesAlong bs).take i)).Holds n l := by
  have hlinks : g.Links t y x := by
    have hmem := List.mem_of_getElem? hi
    obtain ⟨b, -, hmem⟩ := List.mem_flatMap.1 hmem
    exact ⟨b, c, hmem, hc⟩
  have huses := hf.of_links hlinks
  obtain ⟨own, hown, htake, hplace⟩ := hg.behind bs i c y x hi hc
  obtain ⟨n, m, hn, hm, hsource⟩ :=
    sourceOf_brought hc.2 hown ((hg.fields y x hlinks f).2 huses)
  refine ⟨huses, n, m, hn, hm, fun s l => ?_⟩
  rw [hplace, List.take_add, htake, Facts.run_append, Facts.holds_run, hsource]

/-- What holds of one copy holds of a chain of them. -/
theorem Graph.Completed.relayed (hr : Relay t f (g.copiesAlong bs) x i y j)
    (hf : g.UsesField t x f) : g.UsesField t y f ∧
      ∃ n m, t.get? n = some (.instanceField x f) ∧ t.get? m = some (.instanceField y f) ∧
        ∀ (s : Facts) l, (s.run ((g.copiesAlong bs).take j)).Holds m l ↔
          (s.run ((g.copiesAlong bs).take i)).Holds n l := by
  induction hr with
  | copy hi hc => exact hg.copied hi hc hf
  | onward _ hjk huntouched hk hc ih =>
    obtain ⟨huses, n, m, hn, hm, hfirst⟩ := ih
    obtain ⟨huses', n', m', hn', hm', hlast⟩ := hg.copied hk hc huses
    obtain rfl := PointerTable.get?_inj hm hn'
    refine ⟨huses', n, m', hn, hm', fun s l => ?_⟩
    rw [hlast, holds_take_of_untouched hjk, hfirst]
    rintro p d hjp hpk hd rfl
    exact huntouched p d hjp hpk hd hm

end Travel

/-- Fields travel with references: when the last copy of a relay and its field copies are done, a
field of the variable it ends at has what the field of the first variable had before the first
copy, whatever the state was that the walk started with. -/
theorem fields_travel (hg : g.FieldsPropagated t) (bs : List Nat)
    (hr : Relay t f (g.copiesAlong bs) x i y j) (hf : g.UsesField t x f) :
    ∃ n m, t.get? n = some (.instanceField x f) ∧ t.get? m = some (.instanceField y f) ∧
      ∀ (s : Facts) l, (s.run ((g.copiesAlong bs).take j)).Holds m l ↔
        (s.run ((g.copiesAlong bs).take i)).Holds n l := by
  obtain ⟨fieldsAt, hcompleted⟩ := hg.completed
  exact (hcompleted.relayed hr hf).2

end Graphs

namespace Analysis

variable {a : Analysis} {entry : MethodId} {k : Construction}

/-- With field copies switched on, the graph of an analysis is one of those meant here. -/
theorem constructFrom_fieldsPropagated (hon : a.config.fieldCopropagation = true)
    (h : a.constructFrom entry = .ok k) : k.graph.FieldsPropagated k.table := by
  rcases constructFrom_eq_ok h with ⟨-, events, rfl⟩ | ⟨i, k, hrun, hk, events, rfl⟩
  · have hnone : ∀ b ∈ (∅ : Draft).blocks, False := fun _ => Array.not_mem_empty _
    have hfreeze : (∅ : Draft).freeze 0 [] = .ok .empty := by
      refine Draft.freeze_eq_ok.2 ⟨fun ss hss => absurd hss (Array.not_mem_empty ss), ?_⟩
      decide +kernel
    exact ⟨∅, ∅, ⟨∅, ∅, 0, []⟩, 0, [], fun b hb => (hnone b hb).elim,
      fun b hb => (hnone b hb).elim, rfl, hfreeze, rfl⟩
  · obtain ⟨fields, hfields, hsites, hclose, -⟩ := complete_eq_ok hk
    have htable := table_of_sites hrun hk hfields hsites
    rcases hfields with ⟨-, hfields⟩ | ⟨hoff, -⟩
    · exact ⟨i.draft, i.table, fields, i.entry, _, named_of_run hrun, fresh_of_run hrun, hfields,
        hclose, htable.symm⟩
    · rw [hon] at hoff
      cases hoff

end Analysis

def handingOver : Program where
  classes := []
  methods := [
    ⟨"Main", "main", "", true, false, none, [], ["a", "b", "d", "c"], [.new 0 "A", .new 1 "B",
      .store (some 0) ⟨"A", "f"⟩ (.var 1), .call ⟨some 2, ⟨"Id", "id", ""⟩, [.var 0], none⟩,
      .load 3 (some 2) ⟨"A", "f"⟩, .ret none]⟩,
    ⟨"Id", "id", "", true, false, none, [0], ["p"], [.ret (some (.var 0))]⟩]
  entry := none

/-- On the way through the call the field passes a variable that it is nowhere used through. -/
theorem handing_over_fields_travel :
    ∃ k, (Analysis.of handingOver .default).constructFrom 0 = .ok k ∧
      k.graph.FieldsPropagated k.table ∧
      Relay k.table ⟨"A", "f"⟩ (k.graph.copiesAlong [0, 3, 2, 4, 1]) ⟨0, 0⟩ 3 ⟨0, 2⟩ 7 ∧
      k.graph.UsesField k.table ⟨0, 0⟩ ⟨"A", "f"⟩ ∧
      ∃ n m, k.table.get? n = some (.instanceField ⟨0, 0⟩ ⟨"A", "f"⟩) ∧
        k.table.get? m = some (.instanceField ⟨0, 2⟩ ⟨"A", "f"⟩) ∧ ∀ (s : Facts) l,
          (s.run ((k.graph.copiesAlong [0, 3, 2, 4, 1]).take 7)).Holds m l ↔
            (s.run ((k.graph.copiesAlong [0, 3, 2, 4, 1]).take 3)).Holds n l := by
  obtain ⟨k, hk, hcopies, ha, hp, hd, hf⟩ :
      ∃ k, (Analysis.of handingOver .default).constructFrom 0 = .ok k ∧
        k.graph.copiesAlong [0, 3, 2, 4, 1] = [⟨0, 1, .statement⟩, ⟨2, 3, .statement⟩,
          ⟨4, 2, .statement⟩, ⟨8, 0, .call⟩, ⟨9, 4, .fieldCopy⟩, ⟨7, 8, .statement⟩,
          ⟨5, 9, .fieldCopy⟩, ⟨0, 8, .call⟩, ⟨4, 9, .fieldCopy⟩, ⟨6, 5, .statement⟩] ∧
        k.table.get? 0 = some (.var ⟨0, 0⟩) ∧ k.table.get? 8 = some (.var ⟨1, 0⟩) ∧
        k.table.get? 7 = some (.var ⟨0, 2⟩) ∧ ⟨"A", "f"⟩ ∈ k.table.fieldsOf ⟨0, 0⟩ :=
    exists_ok (by decide +kernel)
  have hpropagated := Analysis.constructFrom_fieldsPropagated rfl hk
  have huses : k.graph.UsesField k.table ⟨0, 0⟩ ⟨"A", "f"⟩ := ⟨_, .refl _, hf⟩
  have hrelay : Relay k.table ⟨"A", "f"⟩ (k.graph.copiesAlong [0, 3, 2, 4, 1]) ⟨0, 0⟩ 3 ⟨0, 2⟩
      7 := by
    rw [hcopies]
    refine .onward (j := 5) (k := 5) (y := ⟨1, 0⟩) (c := ⟨7, 8, .statement⟩) ?_ (Nat.le_refl 5)
      (fun l _ h h' => absurd h (Nat.not_le.2 h')) rfl ⟨by decide, hd, hp⟩
    exact .copy (i := 3) (c := ⟨8, 0, .call⟩) rfl ⟨by decide, hp, ha⟩
  exact ⟨k, hk, hpropagated, hrelay, huses, fields_travel hpropagated _ hrelay huses⟩

end PointsTo
