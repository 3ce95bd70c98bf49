import Mathlib.Data.List.Nodup
import Mathlib.Logic.Equiv.Defs
import PointsTo.FieldCopies
import PointsTo.Proofs.Numbering

/-! Renaming methods. A pointer is renamed with the method of its variable or statement. Numbers are
given in the order in which pointers come, so a renamed table numbers renamed pointers alike. -/
namespace PointsTo

abbrev Renaming := Equiv.Perm MethodId

variable {σ : Renaming}

def Var.rename (σ : Renaming) (v : Var) : Var := ⟨σ v.method, v.slot⟩

theorem Var.rename_injective (σ : Renaming) : Function.Injective (Var.rename σ) := by
  rintro ⟨m, x⟩ ⟨m', x'⟩ h
  obtain ⟨hm, hx⟩ := Var.mk.inj h
  rw [Var.mk.injEq]
  exact ⟨σ.injective hm, hx⟩

@[simp] theorem Var.rename_inj {v w : Var} : v.rename σ = w.rename σ ↔ v = w :=
  (Var.rename_injective σ).eq_iff

@[simp] theorem Var.rename_refl : Var.rename (.refl _) = id := rfl

namespace Pointer

def rename (σ : Renaming) : Pointer → Pointer
  | var v => var (v.rename σ)
  | staticField f => staticField f
  | instanceField v f => instanceField (v.rename σ) f
  | allocation m x => allocation (σ m) x

theorem rename_injective (σ : Renaming) : Function.Injective (rename σ) := by
  intro p q h
  cases p <;> cases q <;> simp_all [rename]

@[simp] theorem rename_inj {p q : Pointer} : p.rename σ = q.rename σ ↔ p = q :=
  (rename_injective σ).eq_iff

@[simp] theorem rename_refl : rename (.refl _) = id := by
  funext p
  cases p <;> rfl

theorem ofField_rename (base : Option Var) (field : FieldRef) :
    ofField (base.map (Var.rename σ)) field = (ofField base field).rename σ := by
  cases base <;> rfl

theorem var?_rename (p : Pointer) : (p.rename σ).var? = p.var?.map (Var.rename σ) := by
  cases p <;> rfl

theorem fieldOf?_rename (v : Var) (p : Pointer) : (p.rename σ).fieldOf? (v.rename σ) =
    p.fieldOf? v := by
  cases p with
  | instanceField w f => simp only [rename, fieldOf?, Var.rename_inj]
  | _ => rfl

end Pointer

namespace PointerTable

def rename (σ : Renaming) (t : PointerTable) : PointerTable :=
  ⟨t.pointers.map (Pointer.rename σ), by
    rw [Array.toList_map]
    exact List.Nodup.map (Pointer.rename_injective σ) t.distinct⟩

variable (t : PointerTable) (p : Pointer) (n : Nat)

theorem ext {t u : PointerTable} (h : t.pointers = u.pointers) : t = u := by
  cases t
  cases u
  cases h
  rfl

@[simp] theorem rename_refl : t.rename (.refl _) = t := by
  apply ext
  simp [rename]

@[simp] theorem rename_empty : (∅ : PointerTable).rename σ = ∅ := by
  apply ext
  exact Array.map_empty

@[simp] theorem size_rename : (t.rename σ).size = t.size := Array.size_map

theorem get?_rename : (t.rename σ).get? n = (t.get? n).map (Pointer.rename σ) :=
  Array.getElem?_map

theorem get?_rename_iff {t : PointerTable} {p : Pointer} {n : Nat} :
    (t.rename σ).get? n = some (p.rename σ) ↔ t.get? n = some p := by
  rw [get?_rename]
  cases t.get? n <;> simp

theorem resolve_rename : (t.rename σ).resolve n = (t.resolve n).map (Pointer.rename σ) := by
  rw [resolve, resolve, get?_rename]
  cases t.get? n <;> rfl

theorem lookup_rename : (t.rename σ).lookup (p.rename σ) = t.lookup p := by
  ext n
  rw [lookup_eq_some_iff, lookup_eq_some_iff, get?_rename_iff]

theorem intern_rename :
    (t.rename σ).intern (p.rename σ) = ((t.intern p).1, (t.intern p).2.rename σ) := by
  cases hl : t.lookup p with
  | some n =>
    have hn := lookup_eq_some_iff.1 hl
    rw [intern_of_get? hn, intern_of_get? (get?_rename_iff.2 hn)]
  | none =>
    have hnone : ∀ u : PointerTable, ∀ q, u.lookup q = none →
        (u.intern q).1 = u.size ∧ (u.intern q).2.pointers = u.pointers.push q := by
      intro u q hq
      rcases intern_eq u q with ⟨n, hn, -⟩ | hpush
      · rw [lookup_eq_some_iff.2 hn] at hq
        cases hq
      · exact hpush
    obtain ⟨hid, hpush⟩ := hnone t p hl
    obtain ⟨hid', hpush'⟩ := hnone _ _ ((lookup_rename (σ := σ) t p).trans hl)
    refine Prod.ext ?_ (ext ?_)
    · rw [hid', hid, size_rename]
    · change _ = (t.intern p).2.pointers.map (Pointer.rename σ)
      rw [hpush', hpush, Array.map_push]
      rfl

theorem fieldsOf_rename (v : Var) : (t.rename σ).fieldsOf (v.rename σ) = t.fieldsOf v := by
  unfold fieldsOf
  congr 1
  rw [rename, Array.toList_map, List.filterMap_map]
  apply List.filterMap_congr
  intro p _
  exact Pointer.fieldOf?_rename v p

end PointerTable

/-- The second computation numbers renamed pointers as the first one numbers the pointers. -/
def Alike {α : Type} (σ : Renaming) (f g : PointerTable → α × PointerTable) : Prop :=
  ∀ t, g (t.rename σ) = ((f t).1, (f t).2.rename σ)

namespace Alike

variable {α β : Type}

theorem pure (a : α) : Alike σ (fun t => (a, t)) fun t => (a, t) := fun _ => rfl

theorem intern (p : Pointer) : Alike σ (·.intern p) (·.intern (p.rename σ)) :=
  fun t => t.intern_rename p

theorem bind {f g : PointerTable → α × PointerTable} {f' g' : α → PointerTable → β × PointerTable}
    (h : Alike σ f g) (h' : ∀ a, Alike σ (f' a) (g' a)) :
    Alike σ (fun t => f' (f t).1 (f t).2) fun t => g' (g t).1 (g t).2 := by
  intro t
  dsimp only
  rw [h t]
  exact h' _ _

end Alike

namespace Effect

def rename (σ : Renaming) : Effect Pointer → Effect Pointer
  | idle => idle
  | copy target source => copy (target.rename σ) (source.rename σ)
  | load target source => load (target.rename σ) (source.rename σ)
  | test id traced => test id (traced.rename σ)
  | malformedTest => malformedTest
  | call c => call c

theorem number_alike (e : Effect Pointer) :
    Alike σ (fun t => e.number t) fun t => (e.rename σ).number t := by
  cases e with
  | idle => exact .pure _
  | malformedTest => exact .pure _
  | call c => exact .pure _
  | test id traced => exact .bind (.intern traced) fun n => .pure _
  | copy target source =>
    exact .bind (.intern target) fun n => .bind (.intern source) fun m => .pure _
  | load target source =>
    exact .bind (.intern source) fun n => .bind (.intern target) fun m => .pure (load m n)

theorem numberAll_alike (es : List (Effect Pointer)) :
    Alike σ (fun t => numberAll t es) fun t => numberAll t (es.map (rename σ)) := by
  induction es with
  | nil => exact .pure _
  | cons e es ih => exact .bind (number_alike e) fun e => .bind ih fun es => .pure (e :: es)

end Effect

theorem Stmt.effect_rename (h : Recognizer) (m : MethodId) (receiver : Option Var) (i : Nat)
    (s : Stmt) :
    s.effect h (σ m) (receiver.map (Var.rename σ)) i = (s.effect h m receiver i).rename σ := by
  have hbase : ∀ base : Option Slot, base.map (fun x => (⟨σ m, x⟩ : Var)) =
      (base.map (fun x => (⟨m, x⟩ : Var))).map (Var.rename σ) := by
    intro base
    cases base <;> rfl
  cases s with
  | copy lhs operand => cases operand <;> rfl
  | load lhs base field =>
    simp only [effect, hbase, Pointer.ofField_rename]
    rfl
  | store base field operand =>
    cases operand with
    | var x =>
      simp only [effect, hbase, Pointer.ofField_rename]
      rfl
    | const value => rfl
  | call c =>
    simp only [effect]
    split <;> rfl
  | ret value =>
    rcases value with _ | _ | _
    · rfl
    · cases receiver <;> rfl
    · rfl
  | _ => rfl

theorem methodBlocks_alike (h : Recognizer) (m : MethodId) (stmts : List Stmt)
    (receiver : Option Var) : Alike σ (methodBlocks h m stmts receiver)
      (methodBlocks h (σ m) stmts (receiver.map (Var.rename σ))) := by
  have heffects : (stmts.zipIdx.map fun si =>
      si.1.effect h (σ m) (receiver.map (Var.rename σ)) si.2) =
        (stmts.zipIdx.map fun si => si.1.effect h m receiver si.2).map (Effect.rename σ) := by
    rw [List.map_map]
    apply List.map_congr_left
    intro si _
    exact si.1.effect_rename h m receiver si.2
  have hall := Effect.numberAll_alike (σ := σ)
    (stmts.zipIdx.map fun si => si.1.effect h m receiver si.2)
  rw [← heffects] at hall
  exact .bind hall fun effects =>
    .pure ((segments stmts.length (blockStarts h stmts).toList).zipIdx.map fun part =>
      localBlock stmts effects (blockStarts h stmts).toList part.2 part.1.1 part.1.2)

theorem Inliner.numberPairs_alike (pairs : List (Var × Var)) : Alike σ
    (fun t => numberPairs t pairs)
    fun t => numberPairs t (pairs.map (Prod.map (Var.rename σ) (Var.rename σ))) := by
  induction pairs with
  | nil => exact .pure _
  | cons pair pairs ih =>
    exact .bind (.intern (.var pair.2)) fun a => .bind (.intern (.var pair.1)) fun f =>
      .bind ih fun rest => .pure ((f, a) :: rest)

theorem Inliner.internReceiver_alike (receiver : Option Var) : Alike σ
    (fun t => internReceiver t receiver)
    fun t => internReceiver t (receiver.map (Var.rename σ)) := by
  cases receiver with
  | none => exact .pure _
  | some r => exact .bind (.intern (.var r)) fun id => .pure (some id)

theorem fieldCopies_alike (target source : Var) (fs : List FieldRef) : Alike σ
    (fun t => fieldCopies target source t fs)
    fun t => fieldCopies (target.rename σ) (source.rename σ) t fs := by
  induction fs with
  | nil => exact .pure _
  | cons f fs ih =>
    exact .bind (.intern (.instanceField target f)) fun a =>
      .bind (.intern (.instanceField source f)) fun b =>
        .bind ih fun rest => .pure (⟨a, b, .fieldCopy⟩ :: rest)

end PointsTo
