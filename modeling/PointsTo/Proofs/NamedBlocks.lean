import PointsTo.Proofs.ControlFlow

/-! The blocks of a method by name. They are read off the statements alone, and the numbered blocks
stand for them in every table that has their numbers. -/
namespace PointsTo

structure NamedBlock where
  first : Nat
  last : Nat
  copies : List (Pointer × Pointer)
  succs : OrderedSet Nat
  /-- The call that ends the block, unless it is a hook. -/
  call : Option Call
  mark : Option (Int × Pointer)

/-- Block `i` of method `m`. Only its last statement can be a call or a test hook. -/
def namedBlock (h : Recognizer) (m : MethodId) (stmts : List Stmt) (receiver : Option Var)
    (starts : List Nat) (i first last : Nat) : NamedBlock :=
  let ending := stmts[last]?.map fun s => s.effect h m receiver last
  { first
    last
    copies := loweringsFrom m receiver stmts first (last + 1 - first)
    succs := stmts[last]?.elim ∅ (localSuccs starts i)
    call := ending.bind Effect.call?
    mark := ending.bind Effect.test? }

def namedBlocks (h : Recognizer) (m : MethodId) (stmts : List Stmt) (receiver : Option Var) :
    List NamedBlock :=
  let starts := (blockStarts h stmts).toList
  (segments stmts.length starts).zipIdx.map fun ((first, last), i) =>
    namedBlock h m stmts receiver starts i first last

def TestMark.Names (t : PointerTable) (mark : TestMark) (test : Int × Pointer) : Prop :=
  mark.testId = test.1 ∧ t.get? mark.traced = some test.2

structure LocalBlock.Denotes (t : PointerTable) (lb : LocalBlock) (nb : NamedBlock) : Prop where
  first : lb.first = nb.first
  last : lb.last = nb.last
  copies : List.Forall₂ (Copy.Lowers t) lb.copies nb.copies
  succs : lb.succs = nb.succs
  call : lb.call.map (·.2) = nb.call
  mark : Option.Rel (TestMark.Names t) lb.mark nb.mark

variable {h : Recognizer} {m : MethodId} {stmts : List Stmt} {receiver : Option Var}
  {t : PointerTable} {i : Nat} {lb : LocalBlock} {s : Stmt}

theorem getElem?_namedBlocks (i : Nat) :
    (namedBlocks h m stmts receiver)[i]? = (blockStarts h stmts).toList[i]?.map fun first =>
      namedBlock h m stmts receiver (blockStarts h stmts).toList i first
        ((blockStarts h stmts).toList[i + 1]?.getD stmts.length - 1) := by
  simp only [namedBlocks, List.getElem?_map, List.getElem?_zipIdx, getElem?_segments,
    Option.map_map, Nat.zero_add]
  rfl

theorem length_namedBlocks :
    (namedBlocks h m stmts receiver).length = (blockStarts h stmts).size := by
  simp [namedBlocks, OrderedSet.size]

theorem number_test? (e : Effect Pointer) :
    Option.Rel (fun n p => n.1 = p.1 ∧ (e.number t).2.get? n.2 = some p.2)
      (e.number t).1.test? e.test? := by
  cases e with
  | test id traced => exact .some ⟨rfl, t.get?_intern traced⟩
  | _ => exact .none

theorem endsBlock_of_test? {x : Nat} (htest : ((s.effect h m receiver x).test?).isSome = true) :
    s.endsBlock h = true := by
  cases s with
  | call c =>
    cases hc : h c with
    | none => exact endsBlock_of_call hc
    | some hook =>
      cases hook with
      | alloc label => simp [Stmt.effect, hc, Effect.test?] at htest
      | test id traced => simp [Stmt.endsBlock, Stmt.isAllocHook, hc]
  | copy x operand => cases operand <;> simp [Stmt.effect, Effect.test?] at htest
  | store base field operand => cases operand <;> simp [Stmt.effect, Effect.test?] at htest
  | ret value =>
    rcases value with _ | _ | _ <;> cases receiver <;> simp [Stmt.effect, Effect.test?] at htest
  | _ => simp [Stmt.effect, Effect.test?] at htest

section Numbered

variable (ht : (methodBlocks h m stmts receiver t).2 = t)
  (hlb : (methodBlocks h m stmts receiver t).1[i]? = some lb)

include ht hlb

theorem no_inner_test {e : Effect Nat}
    (he : e ∈ ((methodEffects h m stmts receiver t).drop lb.first).take (lb.last - lb.first)) :
    e.test? = none := by
  obtain ⟨x, s, hfirst, hlast, hs, rfl⟩ := inner_effect ht he
  have htest := number_test? (t := t) (s.effect h m receiver x)
  cases hn : ((s.effect h m receiver x).number t).1.test? with
  | none => rfl
  | some n =>
    rw [hn] at htest
    cases hp : (s.effect h m receiver x).test? with
    | none =>
      rw [hp] at htest
      cases htest
    | some p =>
      have hends : s.endsBlock h = true := endsBlock_of_test? (by rw [hp]; rfl)
      have := ends_last hlb hfirst (Nat.le_of_lt hlast) hs hends
      omega

theorem mark_denotes (hs : stmts[lb.last]? = some s) :
    Option.Rel (TestMark.Names t) lb.mark (s.effect h m receiver lb.last).test? := by
  have hinit : (((methodEffects h m stmts receiver t).drop lb.first).take
      (lb.last - lb.first)).filterMap Effect.test? = [] :=
    List.filterMap_eq_nil_iff.2 fun e he => no_inner_test ht hlb he
  have hdenotes := effect_denotes ht hs
  rw [mark_eq_last_test hlb, own_effects ht hlb hs, List.filterMap_append, hinit, List.nil_append]
  cases he : s.effect h m receiver lb.last with
  | test id traced =>
    rw [he] at hdenotes
    exact .some hdenotes
  | _ => exact .none

theorem block_denotes : ∃ nb, (namedBlocks h m stmts receiver)[i]? = some nb ∧ lb.Denotes t nb := by
  have hbounds := block_bounds hlb
  obtain ⟨hfirst, hlast, heq⟩ := methodBlocks_eq_some hlb
  have hs := List.getElem?_eq_getElem hbounds.2
  refine ⟨_, by rw [getElem?_namedBlocks, hfirst, ← hlast]; rfl, ?_⟩
  constructor
  case first => rfl
  case last => rfl
  case copies =>
    rw [block_copies hlb]
    exact copiesFrom_lowers ht (by omega)
  case succs =>
    rw [heq]
    rfl
  case call =>
    rw [block_call ht hlb hs]
    simp only [namedBlock, hs, Option.map_some, Option.bind_some]
  case mark =>
    simp only [namedBlock, hs, Option.map_some, Option.bind_some]
    exact mark_denotes ht hlb hs

end Numbered

theorem methodBlocks_denote (ht : (methodBlocks h m stmts receiver t).2 = t) :
    List.Forall₂ (LocalBlock.Denotes t) (methodBlocks h m stmts receiver t).1
      (namedBlocks h m stmts receiver) := by
  refine List.forall₂_iff_get.2 ⟨length_methodBlocks.trans length_namedBlocks.symm, ?_⟩
  intro i hi hi'
  obtain ⟨nb, hnb, hd⟩ := block_denotes ht (List.getElem?_eq_getElem hi)
  obtain ⟨_, rfl⟩ := List.getElem?_eq_some_iff.1 hnb
  exact hd

end PointsTo
