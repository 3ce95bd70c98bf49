import PointsTo.Yaml.Print

/-! How printable text on one line is written: as it is, or in single quotes. -/
namespace PointsTo.Yaml

variable {c : Char} {cs rest : List Char} {s : String}

def IsLine (cs : List Char) : Prop := ∀ c ∈ cs, isPrintable c = true ∧ isBreak c = false

instance : DecidablePred IsLine := fun cs =>
  List.decidableBAll (fun c => isPrintable c = true ∧ isBreak c = false) cs

structure IsPlain (cs : List Char) : Prop where
  line : IsLine cs
  start : startsMarkup cs = false
  inside : breaksPlain cs = false
  first : cs.head? ≠ some ' '
  last : cs.getLast? ≠ some ' '

/-- A character that documents keep. -/
structure IsStable (c : Char) : Prop where
  allowed : isAllowed c = true
  carriage : c ≠ '\r'
  nextLine : c ≠ '\x85'

theorem isStable_of_isPrintable (h : isPrintable c = true) : IsStable c := by
  simp only [isPrintable, Bool.and_eq_true, decide_eq_true_eq] at h
  exact ⟨h.1.1.1.1, h.1.1.2, h.1.2⟩

theorem isBlank_eq_false (h : isPrintable c = true) (hspace : c ≠ ' ') : isBlank c = false := by
  have htab : c ≠ '\t' := by
    rintro rfl
    cases h
  simp [isBlank, hspace, htab]

def doubled (cs : List Char) : List Char :=
  cs.flatMap fun c => if c = '\'' then ['\'', '\''] else [c]

theorem doubled_cons (c : Char) (cs : List Char) :
    doubled (c :: cs) = (if c = '\'' then ['\'', '\''] else [c]) ++ doubled cs :=
  List.flatMap_cons

section Inside

theorem breaksPlain_tail (h : breaksPlain (c :: cs) = false) : breaksPlain cs = false := by
  unfold breaksPlain at h
  split at h
  · simp_all
  · cases h
  · simp_all
  · simp_all

theorem getLast?_tail {d : Char} (h : (c :: cs).getLast? ≠ some d) : cs.getLast? ≠ some d := by
  cases cs with
  | nil => nofun
  | cons _ _ => exact h

theorem head?_of_breaksPlain (h : breaksPlain (' ' :: cs) = false) : cs.head? ≠ some '#' := by
  cases cs with
  | nil => nofun
  | cons c cs =>
    intro heq
    cases Option.some.inj heq
    cases h

theorem isGap_of_breaksPlain (h : breaksPlain (':' :: cs) = false) : isGap cs = false := by
  rw [breaksPlain, Bool.or_eq_false_iff] at h
  exact h.1

theorem isGap_append (h : isGap cs = false) (rest : List Char) : isGap (cs ++ rest) = false := by
  cases cs with
  | nil => cases h
  | cons c cs => exact h

theorem isIndicator_of_startsMarkup (h : startsMarkup (c :: cs) = false) :
    isIndicator c = false ∧ (c = '-' ∨ c = '?' → isGap cs = false) := by
  unfold startsMarkup at h
  split at h
  · cases h
  · cases h
  · next heq =>
    cases heq
    simp only [Bool.or_eq_false_iff, Bool.and_eq_false_imp, Bool.or_eq_true, decide_eq_true_eq] at h
    exact h
  · next heq => cases heq

theorem isMarker_of_startsMarkup (h : startsMarkup cs = false)
    (hrest : ∀ d ∈ rest.head?, d ≠ '-' ∧ d ≠ '.') : isMarker (cs ++ rest) = false := by
  unfold isMarker
  split
  · next heq =>
    rcases cs with _ | ⟨a, _ | ⟨b, _ | ⟨d, cs⟩⟩⟩
    · cases h
    · cases heq
      exact absurd rfl (hrest '-' rfl).1
    · cases heq
      exact absurd rfl (hrest '-' rfl).1
    · cases heq
      cases h
  · next heq =>
    rcases cs with _ | ⟨a, _ | ⟨b, _ | ⟨d, cs⟩⟩⟩
    · cases h
    · cases heq
      exact absurd rfl (hrest '.' rfl).2
    · cases heq
      exact absurd rfl (hrest '.' rfl).2
    · cases heq
      cases h
  · rfl

end Inside

theorem IsLine.tail (h : IsLine (c :: cs)) : IsLine cs := (List.forall_mem_cons.1 h).2

theorem IsLine.doubled (h : IsLine cs) : IsLine (doubled cs) := by
  intro d hd
  obtain ⟨c, hc, hd⟩ := List.mem_flatMap.1 hd
  split at hd
  · have : d = '\'' := by simpa using hd
    subst this
    decide
  · rw [List.mem_singleton.1 hd]
    exact h c hc

theorem hasSpaceBreak_of_line (h : IsLine cs) : hasSpaceBreak cs = false := by
  fun_induction hasSpaceBreak cs with
  | case1 c cs ih =>
    have hc := (h c (List.mem_cons_of_mem _ List.mem_cons_self)).2
    rw [hc, ih h.tail]
    rfl
  | case2 c cs _ ih => exact ih h.tail
  | case3 => rfl

theorem indentLines_of_line (indent : Nat) (h : IsLine cs) : indentLines indent false cs = cs := by
  induction cs with
  | nil => rfl
  | cons c cs ih =>
    rw [indentLines, (h c List.mem_cons_self).2, ih h.tail]
    rfl

theorem getLast?_isBreak_of_line (h : IsLine cs) : cs.getLast?.any isBreak = false := by
  cases hlast : cs.getLast? with
  | none => rfl
  | some c => exact (h c (List.mem_of_getLast? hlast)).2

theorem singleQuoted_of_line (indent : Nat) (h : IsLine cs) :
    singleQuoted indent cs = '\'' :: doubled cs ++ ['\''] := by
  have hdoubled := indentLines_of_line indent h.doubled
  rw [doubled] at hdoubled
  simp [singleQuoted, hdoubled, getLast?_isBreak_of_line h, doubled]

/-- A line is written plainly where that is possible, else in single quotes. -/
theorem style_of_line (h : IsLine s.toList) :
    style s = .single ∨ style s = .plain ∧ IsPlain s.toList ∧ isSpecialText s = false := by
  have hprintable : s.toList.any (fun c => c ≠ '\n' && !isPrintable c) = false := by
    refine List.any_eq_false.2 fun c hc => ?_
    simp [(h c hc).1]
  have hfeed : '\n' ∉ s.toList := fun hmem => by cases (h _ hmem).2
  have hbreak : s.toList.any isBreak = false :=
    List.any_eq_false.2 fun c hc => by simp [(h c hc).2]
  rw [style, hprintable, hasSpaceBreak_of_line h, if_neg (by simp), if_neg hfeed, hbreak,
    if_neg (by simp)]
  split
  · exact .inl rfl
  · next hplain =>
    simp only [Bool.or_eq_true, decide_eq_true_eq, not_or, Bool.not_eq_true] at hplain
    obtain ⟨⟨⟨⟨⟨hspecial, -⟩, hstart⟩, hinside⟩, hfirst⟩, hlast⟩ := hplain
    exact .inr ⟨rfl, ⟨h, hstart, hinside, hfirst, hlast⟩, hspecial⟩

inductive Writes : YamlScalar → List Char → Prop where
  | plain {s : String} : IsPlain s.toList → Writes ⟨s, true⟩ s.toList
  | quoted {s : String} : IsLine s.toList → Writes ⟨s, false⟩ ('\'' :: doubled s.toList ++ ['\''])

theorem length_doubled_le (cs : List Char) : (doubled cs).length ≤ 2 * cs.length := by
  induction cs with
  | nil => exact Nat.le_refl 0
  | cons c cs ih =>
    rw [doubled_cons, List.length_append, List.length_cons]
    split
    · rw [List.length_cons, List.length_singleton]
      omega
    · rw [List.length_singleton]
      omega

theorem length_of_writes {sc : YamlScalar} {w : List Char} (h : Writes sc w) :
    w.length ≤ 2 * sc.text.length + 2 := by
  cases h with
  | @plain s =>
    rw [String.length_toList]
    dsimp only
    omega
  | @quoted s =>
    have hle := length_doubled_le s.toList
    rw [String.length_toList] at hle
    simp only [List.cons_append, List.length_cons, List.length_append, List.length_nil]
    omega

/-- A string is read back as a plain scalar if it is written so. -/
theorem writes_stringChars (indent : Nat) (h : IsLine s.toList) :
    Writes ⟨s, style s = .plain⟩ (stringChars indent s) := by
  rcases style_of_line h with hstyle | ⟨hstyle, hplain, -⟩
  · have hwritten : Writes ⟨s, false⟩ ('\'' :: doubled s.toList ++ ['\'']) := .quoted h
    simpa [stringChars, hstyle, singleQuoted_of_line indent h] using hwritten
  · have hwritten : Writes ⟨s, true⟩ s.toList := .plain hplain
    simpa [stringChars, hstyle] using hwritten

end PointsTo.Yaml
