import PointsTo.Proofs.Text.Digits
import PointsTo.Proofs.Yaml.Scalar

/-! Decimal numbers are written plainly and are read back. -/
namespace PointsTo.Yaml

variable {c : Char} {cs : List Char}

theorem isPrintable_of_isDigit (h : c.isDigit = true) :
    isPrintable c = true ∧ isBreak c = false := by
  obtain ⟨hlow, hhigh⟩ := Char.isDigit_iff_toNat.1 h
  have hrange : '0' ≤ c ∧ c ≤ '9' := ⟨hlow, hhigh⟩
  have hascii : ' ' ≤ c ∧ c ≤ '~' :=
    ⟨Char.le_trans (by decide) hrange.1, Char.le_trans hrange.2 (by decide)⟩
  have hne : ∀ d : Char, d.isDigit = false → c ≠ d := fun _ => ne_of_isDigit h
  simp [isPrintable, isAllowed, isBreak, hascii, hne '\t' rfl, hne '\r' rfl, hne '\x85' rfl,
    hne '\ufeff' rfl, hne '\n' rfl, hne '\u2028' rfl, hne '\u2029' rfl]

theorem breaksPlain_of_digits (h : ∀ c ∈ cs, c.isDigit = true) : breaksPlain cs = false := by
  induction cs with
  | nil => rfl
  | cons c cs ih =>
    obtain ⟨hc, hcs⟩ := List.forall_mem_cons.1 h
    have hne : ∀ d : Char, d.isDigit = false → c ≠ d := fun _ => ne_of_isDigit hc
    rw [breaksPlain]
    · exact ih hcs
    · exact fun ds heq => absurd heq (hne ' ' rfl)
    · exact hne ':' rfl

theorem startsMarkup_of_isDigit (h : c.isDigit = true) : startsMarkup (c :: cs) = false := by
  have hne : ∀ d : Char, d.isDigit = false → c ≠ d := fun _ => ne_of_isDigit h
  rw [startsMarkup]
  · simp [isIndicator, hne]
  · exact fun ds heq => absurd heq (hne '-' rfl)
  · exact fun ds heq => absurd heq (hne '.' rfl)

theorem isPlain_toString (n : Nat) : IsPlain (toString n).toList := by
  have htext : (toString n).toList = Nat.toDigits 10 n := String.toList_ofList
  have hdigits : ∀ c ∈ Nat.toDigits 10 n, c.isDigit = true := fun _ => isDigit_of_mem_toDigits
  obtain ⟨c, cs, hcons, hc⟩ := toDigits_eq_cons n
  rw [htext]
  refine ⟨fun c hc => isPrintable_of_isDigit (hdigits c hc), ?_, breaksPlain_of_digits hdigits,
    ?_, ?_⟩
  · rw [hcons]
    exact startsMarkup_of_isDigit hc
  · exact fun hhead => ne_of_isDigit (hdigits ' ' (List.mem_of_mem_head? hhead)) rfl rfl
  · exact fun hlast => ne_of_isDigit (hdigits ' ' (List.mem_of_getLast? hlast)) rfl rfl

theorem isPaddedDigits_toDigits (n : Nat) : isPaddedDigits (Nat.toDigits 10 n) = false := by
  obtain ⟨c, cs, hcons, hc⟩ := toDigits_eq_cons n
  have hpadded : isPaddedDigits (Nat.toDigits 10 n) =
      (1 < (Nat.toDigits 10 n).length && (Nat.toDigits 10 n).head? = some '0' &&
        (Nat.toDigits 10 n).all Char.isDigit) := by
    rw [isPaddedDigits]
    · exact fun ds heq => ne_of_isDigit hc rfl (List.cons.inj (hcons.symm.trans heq)).1
    · exact fun ds heq => ne_of_isDigit hc rfl (List.cons.inj (hcons.symm.trans heq)).1
  rw [hpadded]
  by_cases hzero : (Nat.toDigits 10 n).head? = some '0'
  · rw [length_toDigits_of_head? hzero]
    rfl
  · simp [hzero]

theorem readUnsigned_toDigits (n : Nat) : readUnsigned (Nat.toDigits 10 n) = some n := by
  have hdigits : ∀ c ∈ Nat.toDigits 10 n, c.isDigit = true := fun _ => isDigit_of_mem_toDigits
  have hmark : ∀ (d : Char) (cs : List Char), d.isDigit = false →
      Nat.toDigits 10 n ≠ '0' :: d :: cs := by
    intro d cs hd heq
    exact ne_of_isDigit (hdigits d (by simp [heq])) hd rfl
  rw [readUnsigned]
  · rw [isPaddedDigits_toDigits, if_neg Bool.false_ne_true, readDigits_toDigits]
  · exact fun cs => hmark 'x' cs rfl
  · exact fun cs => hmark 'o' cs rfl
  · exact fun cs => hmark 'b' cs rfl

theorem natOfText?_toString (n : Nat) : natOfText? (toString n) = some n := by
  have htext : (toString n).toList = Nat.toDigits 10 n := String.toList_ofList
  obtain ⟨c, cs, hcons, hc⟩ := toDigits_eq_cons n
  rw [natOfText?, htext]
  split
  · next heq =>
    rw [hcons] at heq
    exact absurd (List.cons.inj heq).1 (ne_of_isDigit hc rfl)
  · exact readUnsigned_toDigits n

end PointsTo.Yaml
