import Mathlib.Data.Nat.Digits.Defs
import PointsTo.Text.Digits

/-! Decimal digits. A number is read back from its digits, and only zero begins with a zero. -/
namespace PointsTo

variable {n : Nat} {c : Char} {cs : List Char}

def addDigit (base n : Nat) (c : Char) : Option Nat := do
  let d ← digitValue? c
  if d < base then some (n * base + d) else none

theorem readDigits_eq_foldlM {base : Nat} (h : cs ≠ []) :
    readDigits base cs = cs.foldlM (addDigit base) 0 := by
  cases cs with
  | nil => exact absurd rfl h
  | cons c cs => rfl

theorem addDigit_of_isDigit (h : c.isDigit = true) (n : Nat) :
    addDigit 10 n c = some (10 * n + (c.toNat - '0'.toNat)) := by
  obtain ⟨hlow, hhigh⟩ := Char.isDigit_iff_toNat.1 h
  have hrange : '0' ≤ c ∧ c ≤ '9' := ⟨hlow, hhigh⟩
  have hlt : c.toNat - '0'.toNat < 10 := by
    have : '9'.toNat = '0'.toNat + 9 := rfl
    omega
  rw [addDigit, digitValue?, if_pos hrange, Option.bind_eq_bind, Option.bind_some, if_pos hlt,
    Nat.mul_comm]

theorem foldlM_addDigit (h : ∀ c ∈ cs, c.isDigit = true) (n : Nat) :
    cs.foldlM (addDigit 10) n = some (Nat.ofDigitChars 10 cs n) := by
  induction cs generalizing n with
  | nil => rfl
  | cons c cs ih =>
    obtain ⟨hc, hcs⟩ := List.forall_mem_cons.1 h
    rw [List.foldlM_cons, addDigit_of_isDigit hc, Nat.ofDigitChars_cons]
    exact ih hcs _

theorem isDigit_of_mem_toDigits (h : c ∈ Nat.toDigits 10 n) : c.isDigit = true :=
  Nat.isDigit_of_mem_toDigits (by omega) (by omega) h

theorem toDigits_eq_cons (n : Nat) : ∃ c cs, Nat.toDigits 10 n = c :: cs ∧ c.isDigit = true := by
  cases h : Nat.toDigits 10 n with
  | nil => exact absurd h Nat.toDigits_ne_nil
  | cons c cs => exact ⟨c, cs, rfl, isDigit_of_mem_toDigits (h ▸ List.mem_cons_self)⟩

theorem ne_of_isDigit {d : Char} (h : c.isDigit = true) (hd : d.isDigit = false) : c ≠ d := by
  rintro rfl
  rw [h] at hd
  cases hd

theorem readDigits_toDigits (n : Nat) : readDigits 10 (Nat.toDigits 10 n) = some n := by
  rw [readDigits_eq_foldlM Nat.toDigits_ne_nil,
    foldlM_addDigit (fun _ => isDigit_of_mem_toDigits), Nat.ofDigitChars_ten_toDigits]

theorem eq_zero_of_head?_toDigits (h : (Nat.toDigits 10 n).head? = some '0') : n = 0 := by
  induction n using Nat.strong_induction_on with
  | h n ih =>
    by_cases hlt : n < 10
    · rw [Nat.toDigits_of_lt_base hlt] at h
      exact Nat.digitChar_eq_zero.1 (Option.some.inj h)
    · rw [Nat.toDigits_of_base_le (by omega) (by omega), List.head?_append,
        List.head?_eq_some_head Nat.toDigits_ne_nil, Option.some_or,
        ← List.head?_eq_some_head] at h
      have := ih (n / 10) (by omega) h
      omega

theorem length_toDigits_of_head? (h : (Nat.toDigits 10 n).head? = some '0') :
    (Nat.toDigits 10 n).length = 1 := by
  rw [eq_zero_of_head?_toDigits h]
  rfl

end PointsTo
