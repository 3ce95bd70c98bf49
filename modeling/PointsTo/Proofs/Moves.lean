import PointsTo.Proofs.Facts
import PointsTo.Proofs.Numbering

/-! Moves made one after another. Each brings a first place what a second one has, so a later move
may find what an earlier one brought; if none does, all are as good as made at once. -/
namespace PointsTo

section

variable {α : Type} [DecidableEq α] {ms : List (α × α)} {x y : α}

def origin : List (α × α) → α → α
  | [], x => x
  | m :: ms, x => if origin ms x = m.1 then m.2 else origin ms x

/-- Every place that is moved to ends up with what its own source had before all moves. -/
def Simultaneous (ms : List (α × α)) : Prop := ∀ m ∈ ms, origin ms m.1 = m.2

instance (ms : List (α × α)) : Decidable (Simultaneous ms) :=
  inferInstanceAs (Decidable (∀ m ∈ ms, origin ms m.1 = m.2))

/-- No move reads what an earlier one changed. -/
def Undisturbed (ms : List (α × α)) : Prop := ms.Pairwise fun m n => m.1 = n.2 → m.1 = m.2

instance (ms : List (α × α)) : Decidable (Undisturbed ms) :=
  inferInstanceAs (Decidable (ms.Pairwise _))

theorem origin_append (ms ns : List (α × α)) (x : α) :
    origin (ms ++ ns) x = origin ms (origin ns x) := by
  induction ms with
  | nil => rfl
  | cons m ms ih => rw [List.cons_append, origin, origin, ih]

def moved {β : Type} (σ : α → β) : List (α × α) → α → β
  | [] => σ
  | m :: ms => moved (Function.update σ m.1 (σ m.2)) ms

theorem moved_eq_origin {β : Type} (σ : α → β) (ms : List (α × α)) (x : α) :
    moved σ ms x = σ (origin ms x) := by
  induction ms generalizing σ with
  | nil => rfl
  | cons m ms ih => rw [moved, ih, origin, Function.update_apply, apply_ite σ]

theorem origin_of_fixed (h : ∀ m ∈ ms, m.1 = x → m.2 = x) : origin ms x = x := by
  induction ms with
  | nil => rfl
  | cons m ms ih =>
    obtain ⟨hm, hms⟩ := List.forall_mem_cons.1 h
    rw [origin, ih hms]
    split
    · next heq => exact hm heq.symm
    · rfl

theorem origin_of_not_target (h : x ∉ ms.map Prod.fst) : origin ms x = x := by
  refine origin_of_fixed fun m hm heq => absurd ?_ h
  exact List.mem_map.2 ⟨m, hm, heq⟩

def LastTo (ms : List (α × α)) (m : α × α) : Prop :=
  ∃ before after, ms = before ++ m :: after ∧ m.1 ∉ after.map Prod.fst

theorem exists_lastTo (h : x ∈ ms.map Prod.fst) : ∃ m, m.1 = x ∧ LastTo ms m := by
  induction ms with
  | nil => cases h
  | cons m ms ih =>
    by_cases hmem : x ∈ ms.map Prod.fst
    · obtain ⟨n, hn, before, after, hms, hlast⟩ := ih hmem
      exact ⟨n, hn, m :: before, after, by rw [hms, List.cons_append], hlast⟩
    · have hm : x = m.1 := (List.mem_cons.1 h).resolve_right hmem
      exact ⟨m, hm.symm, [], ms, rfl, hm ▸ hmem⟩

/-- If what is moved to is never read, the last move to a place decides. -/
theorem origin_of_lastTo {m : α × α} (hread : ∀ m ∈ ms, ∀ n ∈ ms, m.1 ≠ n.2) (h : LastTo ms m) :
    origin ms m.1 = m.2 := by
  obtain ⟨before, after, rfl, hlast⟩ := h
  have hm : m ∈ before ++ m :: after := List.mem_append_right _ List.mem_cons_self
  rw [origin_append, origin, origin_of_not_target hlast, if_pos rfl]
  refine origin_of_fixed fun n hn heq => absurd heq ?_
  exact hread n (List.mem_append_left _ hn) m hm

theorem origin_eq_iff_lastTo {m : α × α} (hread : ∀ m ∈ ms, ∀ n ∈ ms, m.1 ≠ n.2) (hm : m ∈ ms) :
    origin ms m.1 = m.2 ↔ LastTo ms m := by
  constructor
  · intro horigin
    obtain ⟨n, hn, hlast⟩ := exists_lastTo (List.mem_map.2 ⟨m, hm, rfl⟩)
    have hsource := origin_of_lastTo hread hlast
    rw [hn, horigin] at hsource
    rwa [Prod.ext hn hsource.symm] at hlast
  · exact origin_of_lastTo hread

/-- What was brought here from `y` was first read by a move that still has it. -/
theorem exists_reader (hd : (ms.map Prod.fst).Nodup) (h : origin ms x = y) (hne : x ≠ y) :
    ∃ m ∈ ms, m.2 = y ∧ origin ms m.1 = y := by
  induction ms with
  | nil => exact absurd h hne
  | cons m ms ih =>
    obtain ⟨hm, hd⟩ := List.nodup_cons.1 hd
    rw [origin] at h
    split at h
    · refine ⟨m, List.mem_cons_self, h, ?_⟩
      rw [origin, origin_of_not_target hm, if_pos rfl, h]
    · next hne' =>
      obtain ⟨n, hn, hsource, horigin⟩ := ih hd h
      refine ⟨n, List.mem_cons_of_mem m hn, hsource, ?_⟩
      rw [origin, horigin, ← h, if_neg hne']

theorem simultaneous_of_undisturbed (hd : (ms.map Prod.fst).Nodup) (h : Undisturbed ms) :
    Simultaneous ms := by
  induction ms with
  | nil => exact fun m hm => nomatch hm
  | cons m ms ih =>
    obtain ⟨hm, hd⟩ := List.nodup_cons.1 hd
    obtain ⟨hfirst, h⟩ := List.pairwise_cons.1 h
    refine List.forall_mem_cons.2 ⟨?_, fun n hn => ?_⟩
    · rw [origin, origin_of_not_target hm, if_pos rfl]
    · rw [origin, ih hd h n hn]
      split
      · next heq => rw [← hfirst n hn heq.symm, heq]
      · rfl

theorem undisturbed_of_simultaneous (hd : (ms.map Prod.fst).Nodup) (h : Simultaneous ms) :
    Undisturbed ms := by
  induction ms with
  | nil => exact .nil
  | cons m ms ih =>
    obtain ⟨hm, hd⟩ := List.nodup_cons.1 hd
    have hrest : ∀ n ∈ ms, (if origin ms n.1 = m.1 then m.2 else origin ms n.1) = n.2 :=
      fun n hn => h n (List.mem_cons_of_mem m hn)
    refine List.pairwise_cons.2 ⟨fun n hn heq => ?_, ih hd fun n hn => ?_⟩
    · have hn' := hrest n hn
      split at hn'
      · rw [heq, ← hn']
      · next hne => exact absurd (hn'.trans heq.symm) hne
    · have hn' := hrest n hn
      split at hn'
      · next heq =>
        -- the move that first read `m.1` has it too, so `m` did not change it
        have hne : n.1 ≠ m.1 := fun heq' => hm (List.mem_map.2 ⟨n, hn, heq'⟩)
        obtain ⟨reader, hreader, hsource, horigin⟩ := exists_reader hd heq hne
        have hreader' := hrest reader hreader
        rw [if_pos horigin, hsource] at hreader'
        rw [heq, ← hn', hreader']
      · exact hn'

/-- Moves to different places are as good as made at once just if none disturbs a later one. -/
theorem simultaneous_iff (hd : (ms.map Prod.fst).Nodup) : Simultaneous ms ↔ Undisturbed ms :=
  ⟨undisturbed_of_simultaneous hd, simultaneous_of_undisturbed hd⟩

end

def Copy.Names (t : PointerTable) (c : Copy) (pair : Pointer × Pointer) : Prop :=
  t.get? c.target = some pair.1 ∧ t.get? c.source = some pair.2

def Pointer.ofVars (pairs : List (Var × Var)) : List (Pointer × Pointer) :=
  pairs.map (Prod.map .var .var)

variable {t u : PointerTable} {copies : List Copy} {pairs : List (Pointer × Pointer)} {n : Nat}
  {p : Pointer}

theorem Copy.Names.mono {c : Copy} {pair : Pointer × Pointer} (hle : t ≤ u)
    (h : c.Names t pair) : c.Names u pair :=
  ⟨PointerTable.get?_of_le hle h.1, PointerTable.get?_of_le hle h.2⟩

theorem getElem?_forall₂ {α β : Type} {R : α → β → Prop} {xs : List α} {ys : List β} {n : Nat}
    {x : α} (h : List.Forall₂ R xs ys) (hx : xs[n]? = some x) :
    ∃ y, ys[n]? = some y ∧ R x y := by
  obtain ⟨hn, rfl⟩ := List.getElem?_eq_some_iff.1 hx
  have hn' : n < ys.length := h.length_eq ▸ hn
  exact ⟨ys[n], List.getElem?_eq_getElem hn', h.get hn hn'⟩

theorem exists_named_copy {pair : Pointer × Pointer}
    (hn : List.Forall₂ (Copy.Names t) copies pairs) (h : pair ∈ pairs) :
    ∃ c ∈ copies, c.Names t pair := by
  obtain ⟨k, hk⟩ := List.mem_iff_getElem?.1 h
  obtain ⟨hlt, rfl⟩ := List.getElem?_eq_some_iff.1 hk
  have hlt' : k < copies.length := hn.length_eq ▸ hlt
  exact ⟨_, List.getElem_mem hlt', hn.get hlt' hlt⟩

theorem exists_name_of_copy {c : Copy} (hn : List.Forall₂ (Copy.Names t) copies pairs)
    (h : c ∈ copies) : ∃ pair ∈ pairs, c.Names t pair := by
  obtain ⟨k, hk⟩ := List.mem_iff_getElem?.1 h
  obtain ⟨hlt, rfl⟩ := List.getElem?_eq_some_iff.1 hk
  have hlt' : k < pairs.length := hn.length_eq ▸ hlt
  exact ⟨_, List.getElem_mem hlt', hn.get hlt hlt'⟩

theorem get?_sourceOf (hn : List.Forall₂ (Copy.Names t) copies pairs) (hp : t.get? n = some p) :
    t.get? (sourceOf copies n) = some (origin pairs p) := by
  induction hn with
  | nil => exact hp
  | @cons c pair copies pairs hc _ ih =>
    obtain ⟨htarget, hsource⟩ := hc
    by_cases heq : sourceOf copies n = c.target
    · rw [heq] at ih
      have htarget' := Option.some.inj (htarget.symm.trans ih)
      rw [sourceOf, origin, if_pos heq, if_pos htarget'.symm]
      exact hsource
    · have hne : origin pairs p ≠ pair.1 := by
        intro h
        exact heq (PointerTable.get?_inj (h ▸ ih) htarget)
      rw [sourceOf, origin, if_neg heq, if_neg hne]
      exact ih

end PointsTo
