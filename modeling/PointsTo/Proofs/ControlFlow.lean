import PointsTo.Program.Draft
import PointsTo.Proofs.Blocks
import PointsTo.Proofs.Moves

/-! The blocks of a method follow the control flow of its statements. What statements do to control
and to pointers is said here once more, statement by statement and without blocks. -/
namespace PointsTo

/-- Control can go from statement `x` to another one. Targets past the end are nowhere. -/
inductive StepsTo (stmts : List Stmt) (x : Nat) : Nat → Prop where
  | branch {targets y} : stmts[x]? = some (.branch targets) → y ∈ targets → y < stmts.length →
      StepsTo stmts x y
  | goto {targets y} : stmts[x]? = some (.goto targets) → y ∈ targets → y < stmts.length →
      StepsTo stmts x y
  | next {s} : stmts[x]? = some s → (∀ targets, s ≠ .goto targets) → (∀ value, s ≠ .ret value) →
      x + 1 < stmts.length → StepsTo stmts x (x + 1)

inductive Stmt.Cuts (h : Recognizer) : Stmt → Prop where
  | branch {targets} : Cuts h (.branch targets)
  | goto {targets} : Cuts h (.goto targets)
  | ret {value} : Cuts h (.ret value)
  | test {c id traced} : h c = some (.test id traced) → Cuts h (.call c)
  | call {c} : h c = none → Cuts h (.call c)

inductive Leader (h : Recognizer) (stmts : List Stmt) : Nat → Prop where
  | target {i x : Nat} {s : Stmt} : stmts[i]? = some s → x ∈ s.jumpTargets → x < stmts.length →
      Leader h stmts x
  | behind {i : Nat} {s : Stmt} : stmts[i]? = some s → s.Cuts h → i + 1 < stmts.length →
      Leader h stmts (i + 1)

/-- What statement `x` of method `m` copies: to the first pointer, from the second. -/
def Stmt.lowering (m : MethodId) (receiver : Option Var) (x : Nat) :
    Stmt → Option (Pointer × Pointer)
  | new lhs _ => some (.var ⟨m, lhs⟩, .allocation m x)
  | copy lhs (.var rhs) => some (.var ⟨m, lhs⟩, .var ⟨m, rhs⟩)
  | load lhs none field => some (.var ⟨m, lhs⟩, .staticField field)
  | load lhs (some base) field => some (.var ⟨m, lhs⟩, .instanceField ⟨m, base⟩ field)
  | store none field (.var rhs) => some (.staticField field, .var ⟨m, rhs⟩)
  | store (some base) field (.var rhs) => some (.instanceField ⟨m, base⟩ field, .var ⟨m, rhs⟩)
  | ret (some (.var value)) => receiver.map fun r => (.var r, .var ⟨m, value⟩)
  | _ => none

def loweringsFrom (m : MethodId) (receiver : Option Var) (stmts : List Stmt) (first n : Nat) :
    List (Pointer × Pointer) :=
  (List.range' first n).filterMap fun x => stmts[x]?.bind (·.lowering m receiver x)

theorem loweringsFrom_succ (m : MethodId) (receiver : Option Var) (stmts : List Stmt)
    (first n : Nat) : loweringsFrom m receiver stmts first (n + 1) =
      loweringsFrom m receiver stmts first n ++
        (stmts[first + n]?.bind (·.lowering m receiver (first + n))).toList := by
  rw [loweringsFrom, List.range'_1_concat, List.filterMap_append, loweringsFrom]
  cases h : stmts[first + n]?.bind (·.lowering m receiver (first + n)) <;> simp [h]

def Copy.Lowers (t : PointerTable) (c : Copy) (pair : Pointer × Pointer) : Prop :=
  c.origin = .statement ∧ c.Names t pair

/-- The blocks cut a method into consecutive parts, and keep its control flow and its copies. -/
structure FollowsControl (h : Recognizer) (m : MethodId) (stmts : List Stmt)
    (receiver : Option Var) (t : PointerTable) (blocks : List LocalBlock) : Prop where
  nonempty : ∀ b ∈ blocks, b.first ≤ b.last
  consecutive : ∀ i b c, blocks[i]? = some b → blocks[i + 1]? = some c → c.first = b.last + 1
  covers : ∀ x, (∃ b ∈ blocks, b.first ≤ x ∧ x ≤ b.last) ↔ x < stmts.length
  starts : ∀ i b, blocks[i]? = some b → i ≠ 0 → Leader h stmts b.first
  inner : ∀ b ∈ blocks, ∀ x, Leader h stmts x → ¬ (b.first < x ∧ x ≤ b.last)
  succs : ∀ b ∈ blocks, ∀ j,
    j ∈ b.succs ↔ ∃ c, blocks[j]? = some c ∧ StepsTo stmts b.last c.first
  ascending : ∀ b ∈ blocks, b.succs.toList.Pairwise (· < ·)
  copies : ∀ b ∈ blocks, List.Forall₂ (Copy.Lowers t) b.copies
    (loweringsFrom m receiver stmts b.first (b.last + 1 - b.first))

section

variable {h : Recognizer} {m : MethodId} {stmts : List Stmt} {receiver : Option Var}
  {t : PointerTable} {i x : Nat} {lb : LocalBlock} {s : Stmt}

theorem endsBlock_iff : s.endsBlock h = true ↔ s.Cuts h := by
  constructor
  · intro hends
    cases s with
    | branch targets => exact .branch
    | goto targets => exact .goto
    | ret value => exact .ret
    | call c =>
      cases hc : h c with
      | none => exact .call hc
      | some hook =>
        cases hook with
        | alloc label => simp [Stmt.endsBlock, Stmt.isAllocHook, hc] at hends
        | test id traced => exact .test hc
    | _ => cases hends
  · intro hcuts
    cases hcuts with
    | branch => rfl
    | goto => rfl
    | ret => rfl
    | test hc => simp [Stmt.endsBlock, Stmt.isAllocHook, hc]
    | call hc => exact endsBlock_of_call hc

theorem mem_blockStarts_iff_leader :
    x ∈ blockStarts h stmts ↔ (x = 0 ∧ 0 < stmts.length) ∨ Leader h stmts x := by
  rw [mem_blockStarts]
  constructor
  · rintro ⟨hlt, rfl | ⟨i, s, hs, ⟨hends, rfl⟩ | htarget⟩⟩
    · exact Or.inl ⟨rfl, hlt⟩
    · exact Or.inr (.behind hs (endsBlock_iff.1 hends) hlt)
    · exact Or.inr (.target hs htarget hlt)
  · rintro (⟨rfl, hlt⟩ | hleader)
    · exact ⟨hlt, Or.inl rfl⟩
    · cases hleader with
      | target hs htarget hlt => exact ⟨hlt, Or.inr ⟨_, _, hs, Or.inr htarget⟩⟩
      | behind hs hcuts hlt =>
        exact ⟨hlt, Or.inr ⟨_, _, hs, Or.inl ⟨endsBlock_iff.2 hcuts, rfl⟩⟩⟩

theorem stepsTo_iff {y : Nat} (hs : stmts[x]? = some s) : StepsTo stmts x y ↔
    y < stmts.length ∧ (y ∈ s.jumpTargets ∨ (s.fallsThrough = true ∧ y = x + 1)) := by
  constructor
  · intro hstep
    cases hstep with
    | branch hs' htarget hlt =>
      cases hs.symm.trans hs'
      exact ⟨hlt, Or.inl htarget⟩
    | goto hs' htarget hlt =>
      cases hs.symm.trans hs'
      exact ⟨hlt, Or.inl htarget⟩
    | next hs' hgoto hret hlt =>
      cases hs.symm.trans hs'
      refine ⟨hlt, Or.inr ⟨?_, rfl⟩⟩
      cases s with
      | goto targets => exact absurd rfl (hgoto targets)
      | ret value => exact absurd rfl (hret value)
      | _ => rfl
  · rintro ⟨hlt, htarget | ⟨hfalls, rfl⟩⟩
    · cases s with
      | branch targets => exact .branch hs htarget hlt
      | goto targets => exact .goto hs htarget hlt
      | _ => cases htarget
    · refine .next hs ?_ ?_ hlt
      · rintro targets rfl
        cases hfalls
      · rintro value rfl
        cases hfalls

theorem effect_copy? :
    (s.effect h m receiver x).copy? = s.lowering m receiver x := by
  cases s with
  | copy lhs rhs => cases rhs <;> rfl
  | load lhs base field => cases base <;> rfl
  | store base field rhs => cases base <;> cases rhs <;> rfl
  | call c =>
    simp only [Stmt.effect, Stmt.lowering]
    cases h c with
    | none => rfl
    | some hook =>
      cases hook with
      | alloc label => rfl
      | test id traced => cases id <;> cases traced <;> rfl
  | ret value => rcases value with _ | _ | _ <;> cases receiver <;> rfl
  | _ => rfl

theorem Effect.Denotes.lowers {e : Effect Nat} {p : Effect Pointer} (hd : e.Denotes t p) :
    List.Forall₂ (Copy.Lowers t) e.copies p.copy?.toList := by
  cases e with
  | copy n k =>
    cases p with
    | copy target source => exact .cons ⟨rfl, hd⟩ .nil
    | _ => cases hd
  | load n k =>
    cases p with
    | load target source => exact .cons ⟨rfl, hd⟩ .nil
    | _ => cases hd
  | _ =>
    cases p with
    | copy target source => cases hd
    | load target source => cases hd
    | _ => exact .nil

section Numbered

variable (ht : (methodBlocks h m stmts receiver t).2 = t)
  (hlb : (methodBlocks h m stmts receiver t).1[i]? = some lb)

include ht in
theorem copiesFrom_lowers {first n : Nat} (hn : first + n ≤ stmts.length) :
    List.Forall₂ (Copy.Lowers t) (copiesFrom (methodEffects h m stmts receiver t) first n)
      (loweringsFrom m receiver stmts first n) := by
  induction n with
  | zero => exact .nil
  | succ n ih =>
    have hs := List.getElem?_eq_getElem (show first + n < stmts.length by omega)
    have he := getElem?_methodEffects ht (first + n)
    rw [hs, Option.map_some] at he
    have hlast := (effect_denotes ht hs).lowers
    rw [effect_copy?] at hlast
    rw [copiesFrom_succ he, loweringsFrom_succ, hs]
    exact List.rel_append (ih (by omega)) hlast

theorem covered_of_lt (hx : x < stmts.length) :
    ∃ b ∈ (methodBlocks h m stmts receiver t).1, b.first ≤ x ∧ x ≤ b.last := by
  induction x with
  | zero =>
    have hpos : 0 < (methodBlocks h m stmts receiver t).1.length :=
      methodBlocks_pos (List.length_pos_iff.1 hx)
    have hb := List.getElem?_eq_getElem hpos
    have := first_of_zero hb
    exact ⟨_, List.mem_of_getElem? hb, by omega, Nat.zero_le _⟩
  | succ x ih =>
    obtain ⟨b, hb, hle, hge⟩ := ih (by omega)
    by_cases hin : x + 1 ≤ b.last
    · exact ⟨b, hb, by omega, hin⟩
    · obtain ⟨j, hj⟩ := List.mem_iff_getElem?.1 hb
      obtain ⟨c, hc, hnext⟩ := next_start hj (by omega)
      have := block_bounds hc
      exact ⟨c, List.mem_of_getElem? hc, by omega, by omega⟩

include hlb in
theorem first_pos (hi : i ≠ 0) : 0 < lb.first := by
  have hfirst := (methodBlocks_eq_some hlb).1
  have hlen := (List.getElem?_eq_some_iff.1 hfirst).1
  have hzero := List.getElem?_eq_getElem (Nat.lt_of_le_of_lt (Nat.zero_le i) hlen)
  have := blockStarts_sorted hzero hfirst (Nat.pos_of_ne_zero hi)
  omega

include hlb in
theorem mem_succs_iff_stepsTo (j : Nat) : j ∈ lb.succs ↔
    ∃ c, (methodBlocks h m stmts receiver t).1[j]? = some c ∧ StepsTo stmts lb.last c.first := by
  have hs := List.getElem?_eq_getElem (block_bounds hlb).2
  rw [mem_succs hlb hs]
  constructor
  · rintro (⟨x, hx, hj⟩ | ⟨hfalls, hlt, rfl⟩)
    · obtain ⟨c, hc, rfl⟩ := idxOf?_blockStarts.1 hj
      have hbounds := block_bounds hc
      exact ⟨c, hc, (stepsTo_iff hs).2 ⟨by omega, Or.inl hx⟩⟩
    · have hlen : i + 1 < (methodBlocks h m stmts receiver t).1.length := by
        rw [length_methodBlocks]
        exact hlt
      have hc := List.getElem?_eq_getElem hlen
      have hbounds := block_bounds hc
      exact ⟨_, hc, (stepsTo_iff hs).2 ⟨by omega, Or.inr ⟨hfalls, first_of_next hlb hc⟩⟩⟩
  · rintro ⟨c, hc, hstep⟩
    obtain ⟨hlt, htarget | ⟨hfalls, hnext⟩⟩ := (stepsTo_iff hs).1 hstep
    · exact Or.inl ⟨c.first, htarget, idxOf?_blockStarts.2 ⟨c, hc, rfl⟩⟩
    · obtain ⟨c', hc', hfirst⟩ := next_start hlb (hnext ▸ hlt)
      have hsame := (idxOf?_blockStarts.2 ⟨c, hc, hnext⟩).symm.trans
        (idxOf?_blockStarts.2 ⟨c', hc', hfirst⟩)
      have hlen := (List.getElem?_eq_some_iff.1 hc').1
      rw [length_methodBlocks] at hlen
      exact Or.inr ⟨hfalls, hlen, Option.some.inj hsame⟩

end Numbered

/-- The blocks are the same for every table that has their numbers. -/
theorem methodBlocks_fixed (h : Recognizer) (m : MethodId) (stmts : List Stmt)
    (receiver : Option Var) (t : PointerTable) :
    methodBlocks h m stmts receiver (methodBlocks h m stmts receiver t).2 =
      methodBlocks h m stmts receiver t := by
  have hn : Numbers (fun _ => True) (methodBlocks h m stmts receiver) :=
    numbers_methodBlocks h m stmts receiver fun _ _ _ _ => trivial
  exact hn.stable t _ (PointerTable.le_refl _)

/-- Building blocks keeps to the control flow of the statements, whatever they are and whatever
counts as a hook. -/
theorem methodBlocks_follow_control (h : Recognizer) (m : MethodId) (stmts : List Stmt)
    (receiver : Option Var) (t : PointerTable) :
    FollowsControl h m stmts receiver (methodBlocks h m stmts receiver t).2
      (methodBlocks h m stmts receiver t).1 := by
  have hfixed := methodBlocks_fixed h m stmts receiver t
  obtain ⟨u, hu⟩ : ∃ u, (methodBlocks h m stmts receiver t).2 = u := ⟨_, rfl⟩
  rw [hu] at hfixed ⊢
  rw [← hfixed] at hu ⊢
  constructor
  case nonempty =>
    intro b hb
    obtain ⟨i, hi⟩ := List.mem_iff_getElem?.1 hb
    exact (block_bounds hi).1
  case consecutive =>
    intro i b c hb hc
    exact first_of_next hb hc
  case covers =>
    intro x
    constructor
    · rintro ⟨b, hb, -, hx⟩
      obtain ⟨i, hi⟩ := List.mem_iff_getElem?.1 hb
      have := block_bounds hi
      omega
    · exact covered_of_lt
  case starts =>
    intro i b hb hi
    have hstart := List.mem_of_getElem? (methodBlocks_eq_some hb).1
    rcases mem_blockStarts_iff_leader.1 hstart with ⟨hzero, -⟩ | hleader
    · exact absurd hzero (Nat.ne_of_gt (first_pos hb hi))
    · exact hleader
  case inner =>
    intro b hb x hleader hx
    obtain ⟨i, hi⟩ := List.mem_iff_getElem?.1 hb
    have := start_not_inside hi (mem_blockStarts_iff_leader.2 (Or.inr hleader)) hx.1
    omega
  case succs =>
    intro b hb
    obtain ⟨i, hi⟩ := List.mem_iff_getElem?.1 hb
    exact mem_succs_iff_stepsTo hi
  case ascending =>
    intro b hb
    exact b.succs.ascending.imp Nat.compare_eq_lt.1
  case copies =>
    intro b hb
    obtain ⟨i, hi⟩ := List.mem_iff_getElem?.1 hb
    have hbounds := block_bounds hi
    rw [block_copies hi]
    exact copiesFrom_lowers hu (by omega)

end

def loopingBody : List Stmt :=
  [.copy 1 (.var 0), .call (Hooks.default.allocCall 1), .new 0 "A", .branch [1, 3, 9], .goto [1],
    .store (some 0) ⟨"A", "f"⟩ (.var 1), .ret (some (.var 1))]

example : (methodBlocks Hooks.default 0 loopingBody none ∅).1.map
    (fun b => (b.first, b.last, b.succs.toList)) =
      [(0, 0, [1]), (1, 2, [2]), (3, 3, [1, 2, 3]), (4, 4, [1]), (5, 6, [])] := by
  decide +kernel

end PointsTo
