import Mathlib.Data.List.Forall2
import PointsTo.Inline

/-! Numbers of pointers are stable. Tables only grow, and whatever was numbered once gets the same
numbers again from every larger table, so blocks can be compared by the final table alone. -/
namespace PointsTo

namespace PointerTable

variable {t u v : PointerTable} {p q : Pointer} {n m : Nat}

instance : LE PointerTable := ⟨fun t u => t.pointers.toList <+: u.pointers.toList⟩

protected theorem le_refl (t : PointerTable) : t ≤ t := List.prefix_refl _

protected theorem le_trans (h : t ≤ u) (k : u ≤ v) : t ≤ v := List.IsPrefix.trans h k

protected theorem le_antisymm (h : t ≤ u) (k : u ≤ t) : t = u := by
  have hl : t.pointers.toList = u.pointers.toList :=
    List.IsPrefix.eq_of_length_le h (List.IsPrefix.length_le k)
  have hp : t.pointers = u.pointers := Array.toList_inj.1 hl
  cases t
  cases u
  cases hp
  rfl

theorem size_le_of_le (h : t ≤ u) : t.size ≤ u.size := by
  simpa [size] using List.IsPrefix.length_le h

theorem get?_of_le (h : t ≤ u) (hn : t.get? n = some p) : u.get? n = some p := by
  obtain ⟨rest, hrest⟩ := h
  simp only [get?, ← Array.getElem?_toList] at hn ⊢
  rw [← hrest, List.getElem?_append_left (List.getElem?_eq_some_iff.1 hn).1]
  exact hn

theorem get?_inj (hn : t.get? n = some p) (hm : t.get? m = some p) : n = m := by
  simp only [get?, ← Array.getElem?_toList] at hn hm
  have hlt := (List.getElem?_eq_some_iff.1 hn).1
  exact (List.getElem?_inj hlt t.distinct).1 (hn.trans hm.symm)

/-- Where a pointer stands. One that is not there stands behind all others. -/
def numberOf (t : PointerTable) (p : Pointer) : Nat := t.pointers.toList.idxOf p

theorem get?_numberOf (h : p ∈ t.pointers) : t.get? (t.numberOf p) = some p := by
  have hlt := List.idxOf_lt_length_of_mem (Array.mem_toList_iff.2 h)
  rw [get?, ← Array.getElem?_toList, numberOf, List.getElem?_eq_getElem hlt]
  exact congrArg some (List.getElem_idxOf hlt)

theorem mem_of_get? (h : t.get? n = some p) : p ∈ t.pointers := Array.mem_of_getElem? h

theorem numberOf_eq (h : t.get? n = some p) : t.numberOf p = n :=
  get?_inj (get?_numberOf (mem_of_get? h)) h

theorem lookup_eq_some_iff : t.lookup p = some n ↔ t.get? n = some p := by
  constructor
  · intro h
    obtain ⟨hlt, hp, -⟩ := Array.findIdx?_eq_some_iff_getElem.1 h
    rw [get?, Array.getElem?_eq_getElem hlt]
    simpa using hp
  · intro h
    cases hl : t.lookup p with
    | none =>
      rw [get?, ← Array.getElem?_toList] at h
      exact absurd (List.mem_of_getElem? h) (lookup_eq_none hl)
    | some m =>
      obtain ⟨hlt, hp, -⟩ := Array.findIdx?_eq_some_iff_getElem.1 hl
      refine congrArg some (get?_inj (t := t) (p := p) ?_ h)
      rw [get?, Array.getElem?_eq_getElem hlt]
      simpa using hp

theorem intern_of_get? (h : t.get? n = some p) : t.intern p = (n, t) := by
  have hl := lookup_eq_some_iff.2 h
  unfold intern
  split
  · next id hid => rw [hl] at hid; cases hid; rfl
  · next hid => rw [hl] at hid; cases hid

theorem intern_eq (t : PointerTable) (p : Pointer) :
    (∃ n, t.get? n = some p ∧ t.intern p = (n, t)) ∨
      ((t.intern p).1 = t.size ∧ (t.intern p).2.pointers = t.pointers.push p) := by
  cases hl : t.lookup p with
  | some n =>
    have hn := lookup_eq_some_iff.1 hl
    exact Or.inl ⟨n, hn, intern_of_get? hn⟩
  | none =>
    right
    unfold intern
    split
    · next id hid => rw [hl] at hid; cases hid
    · exact ⟨rfl, rfl⟩

theorem le_intern (t : PointerTable) (p : Pointer) : t ≤ (t.intern p).2 := by
  rcases intern_eq t p with ⟨n, -, h⟩ | ⟨-, h⟩
  · rw [h]
    exact t.le_refl
  · change t.pointers.toList <+: (t.intern p).2.pointers.toList
    rw [h, Array.toList_push]
    exact List.prefix_append _ _

theorem get?_intern (t : PointerTable) (p : Pointer) :
    (t.intern p).2.get? (t.intern p).1 = some p := by
  rcases intern_eq t p with ⟨n, hn, h⟩ | ⟨hid, h⟩
  · rw [h]
    exact hn
  · rw [hid, get?, h, size]
    simp

theorem mem_intern (h : q ∈ (t.intern p).2.pointers) : q ∈ t.pointers ∨ q = p := by
  rcases intern_eq t p with ⟨n, -, hi⟩ | ⟨-, hi⟩
  · rw [hi] at h
    exact Or.inl h
  · rw [hi, Array.mem_push] at h
    exact h

end PointerTable

/-- A computation that numbers pointers of one kind. It extends the table by such pointers only,
and over every extension of its result it gives the same numbers and adds nothing. -/
structure Numbers {α : Type} (kind : Pointer → Prop) (f : PointerTable → α × PointerTable) :
    Prop where
  extends_table : ∀ t, t ≤ (f t).2
  stable : ∀ t u, (f t).2 ≤ u → f u = ((f t).1, u)
  adds : ∀ t, ∀ p ∈ (f t).2.pointers, p ∈ t.pointers ∨ kind p

namespace Numbers

variable {α β : Type} {kind : Pointer → Prop}

theorem pure (a : α) : Numbers kind fun t => (a, t) where
  extends_table t := t.le_refl
  stable _ _ _ := rfl
  adds _ _ hp := Or.inl hp

theorem bind {f : PointerTable → α × PointerTable} {g : α → PointerTable → β × PointerTable}
    (hf : Numbers kind f) (hg : ∀ a, Numbers kind (g a)) :
    Numbers kind fun t => g (f t).1 (f t).2 where
  extends_table t := PointerTable.le_trans (hf.extends_table t) ((hg _).extends_table _)
  stable t u hu := by
    have hle := PointerTable.le_trans ((hg (f t).1).extends_table (f t).2) hu
    simp only [hf.stable t u hle]
    exact (hg _).stable _ u hu
  adds t p hp := by
    rcases (hg _).adds _ p hp with h | h
    · exact hf.adds t p h
    · exact Or.inr h

/-- If numbering adds nothing in the end, then none of its parts does. -/
theorem fixed_of_bind {f : PointerTable → α × PointerTable}
    {g : α → PointerTable → β × PointerTable} (hf : Numbers kind f) (hg : ∀ a, Numbers kind (g a))
    {t : PointerTable} (h : (g (f t).1 (f t).2).2 = t) :
    (f t).2 = t ∧ g (f t).1 (f t).2 = g (f t).1 t ∧ (g (f t).1 t).2 = t := by
  have hle : (f t).2 ≤ t := by
    have := (hg (f t).1).extends_table (f t).2
    rwa [h] at this
  have hfixed := PointerTable.le_antisymm hle (hf.extends_table t)
  rw [hfixed] at h
  exact ⟨hfixed, by rw [hfixed], h⟩

theorem intern {p : Pointer} (hp : kind p) : Numbers kind (·.intern p) where
  extends_table t := t.le_intern p
  stable t u hu := PointerTable.intern_of_get? (PointerTable.get?_of_le hu (t.get?_intern p))
  adds t q hq := by
    rcases PointerTable.mem_intern hq with h | rfl
    · exact Or.inl h
    · exact Or.inr hp

end Numbers

section

variable {kind : Pointer → Prop}

def Effect.pointers {π : Type} : Effect π → List π
  | copy target source | load target source => [target, source]
  | test _ traced => [traced]
  | _ => []

theorem Effect.numbers_number (e : Effect Pointer) (he : ∀ p ∈ e.pointers, kind p) :
    Numbers kind fun t => e.number t := by
  cases e with
  | idle => exact .pure _
  | malformedTest => exact .pure _
  | call c => exact .pure _
  | test id traced =>
    have htraced := he traced (by simp [pointers])
    exact .bind (.intern htraced) fun n => .pure _
  | copy target source =>
    have htarget := he target (by simp [pointers])
    have hsource := he source (by simp [pointers])
    exact .bind (.intern htarget) fun n => .bind (.intern hsource) fun m => .pure _
  | load target source =>
    have htarget := he target (by simp [pointers])
    have hsource := he source (by simp [pointers])
    exact .bind (.intern hsource) fun n => .bind (.intern htarget) fun m => .pure (load m n)

theorem Effect.numbers_numberAll (es : List (Effect Pointer))
    (hes : ∀ e ∈ es, ∀ p ∈ e.pointers, kind p) : Numbers kind fun t => numberAll t es := by
  induction es with
  | nil => exact .pure _
  | cons e es ih =>
    have he := numbers_number e (hes e List.mem_cons_self)
    have hrest := ih fun e he => hes e (List.mem_cons_of_mem _ he)
    exact .bind he fun a => .bind hrest fun as => .pure _

theorem numbers_methodBlocks (h : Recognizer) (m : MethodId) (stmts : List Stmt)
    (receiver : Option Var)
    (hes : ∀ si ∈ stmts.zipIdx, ∀ p ∈ (si.1.effect h m receiver si.2).pointers, kind p) :
    Numbers kind (methodBlocks h m stmts receiver) := by
  have heffects : ∀ e ∈ stmts.zipIdx.map fun si => si.1.effect h m receiver si.2,
      ∀ p ∈ e.pointers, kind p := by
    intro e he
    obtain ⟨si, hsi, rfl⟩ := List.mem_map.1 he
    exact hes si hsi
  have hall := Effect.numbers_numberAll _ heffects
  exact .bind hall fun effects =>
    .pure ((segments stmts.length (blockStarts h stmts).toList).zipIdx.map fun part =>
      localBlock stmts effects (blockStarts h stmts).toList part.2 part.1.1 part.1.2)

theorem Inliner.numbers_numberPairs (pairs : List (Var × Var)) (hk : ∀ v, kind (.var v)) :
    Numbers kind fun t => numberPairs t pairs := by
  induction pairs with
  | nil => exact .pure _
  | cons pair pairs ih =>
    exact .bind (.intern (hk pair.2)) fun a => .bind (.intern (hk pair.1)) fun f =>
      .bind ih fun rest => .pure ((f, a) :: rest)

theorem Inliner.numbers_internReceiver (receiver : Option Var) (hk : ∀ v, kind (.var v)) :
    Numbers kind fun t => internReceiver t receiver := by
  cases receiver with
  | none => exact .pure _
  | some r => exact .bind (.intern (hk r)) fun id => .pure _

end

section Fixed

variable {t : PointerTable}

theorem numbers_intern (p : Pointer) : Numbers (fun _ => True) (·.intern p) := .intern trivial

theorem PointerTable.intern_fixed {p : Pointer} (h : (t.intern p).2 = t) :
    t.get? (t.intern p).1 = some p := by
  have := t.get?_intern p
  rwa [h] at this

def Effect.Denotes (t : PointerTable) : Effect Nat → Effect Pointer → Prop
  | copy n m, copy p q | load n m, load p q => t.get? n = some p ∧ t.get? m = some q
  | test i n, test j p => i = j ∧ t.get? n = some p
  | call c, call c' => c = c'
  | idle, idle | malformedTest, malformedTest => True
  | _, _ => False

theorem Effect.number_fixed {e : Effect Pointer} (h : (e.number t).2 = t) :
    (e.number t).1.Denotes t e := by
  cases e with
  | idle => trivial
  | malformedTest => trivial
  | call c => rfl
  | test id traced => exact ⟨rfl, PointerTable.intern_fixed h⟩
  | copy target source =>
    obtain ⟨htarget, heq, hsource⟩ := (numbers_intern target).fixed_of_bind
      (fun _ => numbers_intern source) h
    refine ⟨PointerTable.intern_fixed htarget, ?_⟩
    have := PointerTable.intern_fixed hsource
    rwa [← heq] at this
  | load target source =>
    obtain ⟨hsource, heq, htarget⟩ := (numbers_intern source).fixed_of_bind
      (fun _ => numbers_intern target) h
    refine ⟨?_, PointerTable.intern_fixed hsource⟩
    have := PointerTable.intern_fixed htarget
    rwa [← heq] at this

theorem Effect.numberAll_fixed {es : List (Effect Pointer)} (h : (numberAll t es).2 = t) :
    (numberAll t es).1 = es.map (fun e => (e.number t).1) ∧ ∀ e ∈ es, (e.number t).2 = t := by
  induction es with
  | nil => exact ⟨rfl, by simp⟩
  | cons e es ih =>
    obtain ⟨he, heq, hrest⟩ := (numbers_number e fun _ _ => trivial).fixed_of_bind
      (fun _ => numbers_numberAll es fun _ _ _ _ => trivial) h
    obtain ⟨hmap, hall⟩ := ih hrest
    refine ⟨?_, List.forall_mem_cons.2 ⟨he, hall⟩⟩
    change (e.number t).1 :: (numberAll (e.number t).2 es).1 = _
    rw [he, hmap, List.map_cons]

def DenotePair (t : PointerTable) (n : Nat × Nat) (v : Var × Var) : Prop :=
  t.get? n.1 = some (.var v.1) ∧ t.get? n.2 = some (.var v.2)

theorem Inliner.numberPairs_fixed {pairs : List (Var × Var)}
    (h : (numberPairs t pairs).2 = t) :
    List.Forall₂ (DenotePair t) (numberPairs t pairs).1 pairs := by
  induction pairs with
  | nil => exact .nil
  | cons pair pairs ih =>
    obtain ⟨formal, actual⟩ := pair
    obtain ⟨hactual, -, h'⟩ := (numbers_intern (.var actual)).fixed_of_bind
      (fun _ => .bind (numbers_intern (.var formal)) fun _ =>
        numbers_numberPairs pairs fun _ => trivial) h
    obtain ⟨hformal, -, hrest⟩ := (numbers_intern (.var formal)).fixed_of_bind
      (fun _ => numbers_numberPairs pairs fun _ => trivial) h'
    have hpairs : (numberPairs t ((formal, actual) :: pairs)).1 =
        ((t.intern (.var formal)).1, (t.intern (.var actual)).1) :: (numberPairs t pairs).1 := by
      simp only [numberPairs, hactual, hformal]
    rw [hpairs]
    exact .cons ⟨PointerTable.intern_fixed hformal, PointerTable.intern_fixed hactual⟩ (ih hrest)

theorem Inliner.internReceiver_fixed {v : Var} (h : (internReceiver t (some v)).2 = t) :
    ∃ n, (internReceiver t (some v)).1 = some n ∧ t.get? n = some (.var v) :=
  ⟨_, rfl, PointerTable.intern_fixed h⟩

end Fixed

end PointsTo
