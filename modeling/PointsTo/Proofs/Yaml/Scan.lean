import Mathlib.Data.List.TakeDrop
import PointsTo.Proofs.Fault
import PointsTo.Proofs.Yaml.Scalar
import PointsTo.Yaml.Scan

/-! Scanning what was written. A plain scalar ends only where the next line turns out to be no
part of it, and a mapping only at a key that is less deep; runs are compared at the starts of lines,
where both might as well have ended. -/
namespace PointsTo.Yaml.ScanState

variable {s s' σ : ScanState} {sc : YamlScalar} {c : Char} {cs rest w : List Char}
  {column n : Nat} {done : List Token} {indents : List Nat}

def between (column : Nat) (done : List Token) (indents : List Nat) (mayStartKey : Bool) :
    ScanState :=
  ⟨.between, column, done, indents, none, [], mayStartKey⟩

def lineStart (done : List Token) (indents : List Nat) : ScanState := between 0 done indents true

section Steps

theorem run_cons (hadd : s.add c cs = .ok s') (hc : isBreak c = false) :
    s.run (c :: cs) = { s' with column := s'.column + 1 }.run cs := by
  rw [run, hadd, ok_bind, advance, hc]
  rfl

theorem run_break (hadd : s.add '\n' cs = .ok s') (hkey : s'.key = none)
    (houter : s'.outerKeys = []) : s.run ('\n' :: cs) = { s' with column := 0 }.run cs := by
  have hadvance : s'.advance '\n' = .ok { s' with column := 0 } := by
    cases s'
    cases hkey
    cases houter
    rfl
  rw [run, hadd, ok_bind, hadvance, ok_bind]

theorem run_indentation (hadd : ∀ column cs, { s with column := column }.add ' ' cs =
    .ok { s with column := column }) (n column : Nat) :
    { s with column := column }.run (spaces n ++ rest) =
      { s with column := column + n }.run rest := by
  induction n generalizing column with
  | zero => rfl
  | succ n ih =>
    have hspaces : spaces (n + 1) ++ rest = ' ' :: (spaces n ++ rest) := rfl
    rw [hspaces, run_cons (hadd column _) rfl]
    refine (ih (column + 1)).trans ?_
    rw [Nat.add_right_comm]
    rfl

theorem run_spaces (n column : Nat) (mayStartKey : Bool) :
    (between column done indents mayStartKey).run (spaces n ++ rest) =
      (between (column + n) done indents mayStartKey).run rest :=
  run_indentation (s := between 0 done indents mayStartKey)
    (fun _ _ => by simp [add, between, addBetween]) n column

theorem forall_head {p : Nat → Prop} (h : p n) : ∀ m ∈ (n :: indents).head?, p m := by
  rintro m hm
  cases hm
  exact h

/-- No mapping ends in a column that is at least as deep as the innermost one. -/
theorem closeBlocks_of_le (h : ∀ n ∈ s.indents.head?, n ≤ column) : s.closeBlocks column = s := by
  have hspan : s.indents.span (column < ·) = ([], s.indents) := by
    rw [List.span_eq_takeWhile_dropWhile]
    cases hindents : s.indents with
    | nil => rfl
    | cons n ns =>
      have hle : ¬ column < n := Nat.not_lt.2 (h n (by rw [hindents]; rfl))
      simp [hle]
  rw [closeBlocks, hspan]
  split <;> rfl

end Steps

section Scalars

/-- A scalar is read, but for what shows its end. -/
inductive Holds (s : ScanState) : YamlScalar → ScanState → Prop where
  | plain {read : List Char} {text : String} :
    String.ofList read.reverse = text → Holds s ⟨text, true⟩ { s with mode := .plain read .none }
  | quoted {read : List Char} {text : String} :
    String.ofList read.reverse = text → Holds s ⟨text, false⟩ { s with mode := .singleQuote read }

theorem Holds.add_colon (h : Holds s sc σ) (hgap : isGap rest = true) :
    σ.add ':' rest = (s.emit (.scalar sc)).addBetween ':' rest := by
  cases h with
  | plain hread =>
    subst hread
    simp [add, addPlain, isBlank, isBreak, endsPlain, hgap, endPlain, push, emit, Gap.none,
      Gap.isBroken]
  | quoted hread =>
    subst hread
    simp [add, push, emit]

variable {read blanks : List Char}

theorem add_plain_blank (hmode : s.mode = .plain read (.blanks blanks)) :
    s.add ' ' cs = .ok { s with mode := .plain read (.blanks (' ' :: blanks)) } := by
  rw [add, hmode]
  rfl

theorem add_plain (houter : s.outerKeys = []) (hmode : s.mode = .plain read (.blanks blanks))
    (hblank : isBlank c = false) (hbreak : isBreak c = false) (hcolon : c = ':' → isGap cs = false)
    (hmark : c = '#' → blanks = []) :
    s.add c cs = .ok { s with mode := .plain (c :: blanks ++ read) .none } := by
  have hbraces : s.inBraces = false := by
    rw [inBraces, houter]
    rfl
  have hends : s.endsPlain (.blanks blanks) c cs = false := by
    simp only [endsPlain, Gap.isBroken, hbraces, Bool.false_and, Bool.false_or, Bool.or_false,
      Bool.or_eq_false_iff, Bool.and_eq_false_imp, decide_eq_true_eq]
    exact ⟨fun h => by simp [hmark h, Gap.none], hcolon⟩
  rw [add, hmode]
  simp only [addPlain, hblank, hbreak, hends, hbraces]
  rfl

theorem run_plain (houter : s.outerKeys = []) (hmode : s.mode = .plain read (.blanks blanks))
    (hline : IsLine cs) (hinside : breaksPlain cs = false)
    (hmark : blanks ≠ [] → cs.head? ≠ some '#') (hlast : cs.getLast? ≠ some ' ')
    (hblanks : cs = [] → blanks = []) (hcolumn : column = s.column + cs.length) :
    s.run (cs ++ rest) = { s with
      mode := .plain (cs.reverse ++ blanks ++ read) .none, column := column }.run rest := by
  subst hcolumn
  induction cs generalizing s read blanks with
  | nil =>
    obtain rfl := hblanks rfl
    cases s
    cases hmode
    rfl
  | cons c cs ih =>
    obtain ⟨hprintable, hbreak⟩ := hline c List.mem_cons_self
    have hcolumn : s.column + 1 + cs.length = s.column + (c :: cs).length := by
      rw [List.length_cons, Nat.add_right_comm, Nat.add_assoc]
    rw [List.cons_append, List.reverse_cons, ← hcolumn]
    by_cases hspace : c = ' '
    · -- A space belongs to the scalar only if more of it follows.
      subst hspace
      have hne : cs ≠ [] := by
        rintro rfl
        exact hlast rfl
      have hnext := ih (s := { s with mode := .plain read (.blanks (' ' :: blanks))
                                      column := s.column + 1 })
        houter rfl hline.tail (breaksPlain_tail hinside)
        (fun _ => head?_of_breaksPlain hinside) (getLast?_tail hlast) fun h => absurd h hne
      rw [run_cons (add_plain_blank hmode) rfl]
      simpa using hnext
    · have hcolon : c = ':' → isGap (cs ++ rest) = false := by
        rintro rfl
        exact isGap_append (isGap_of_breaksPlain hinside) rest
      have hcomment : c = '#' → blanks = [] := by
        rintro rfl
        exact Classical.byContradiction fun hne => hmark hne rfl
      have hnext := ih (s := { s with mode := .plain (c :: blanks ++ read) .none
                                      column := s.column + 1 })
        houter rfl hline.tail (breaksPlain_tail hinside) nofun (getLast?_tail hlast) fun _ => rfl
      rw [run_cons (add_plain houter hmode (isBlank_eq_false hprintable hspace) hbreak hcolon
        hcomment) hbreak]
      simpa using hnext

theorem add_single_blank (hmode : s.mode = .single read (.blanks blanks)) :
    s.add ' ' cs = .ok { s with mode := .single read (.blanks (' ' :: blanks)) } := by
  rw [add, hmode]
  rfl

theorem isCut_inside (hcolumn : s.column ≠ 0) : s.isCut c cs = false := by
  simp [isCut, hcolumn]

theorem add_single_quote (hmode : s.mode = .single read (.blanks blanks)) (hcolumn : s.column ≠ 0) :
    s.add '\'' cs = .ok { s with mode := .singleQuote (blanks ++ read) } := by
  rw [add, hmode]
  simp only [addSingle, isCut_inside hcolumn]
  rfl

theorem add_single (hmode : s.mode = .single read (.blanks blanks)) (hcolumn : s.column ≠ 0)
    (hblank : isBlank c = false) (hbreak : isBreak c = false) (hquote : c ≠ '\'') :
    s.add c cs = .ok { s with mode := .single (c :: blanks ++ read) .none } := by
  rw [add, hmode]
  simp only [addSingle, hblank, hbreak, isCut_inside hcolumn, if_neg hquote]
  rfl

theorem run_single (hmode : s.mode = .single read (.blanks blanks)) (hcolumn : s.column ≠ 0)
    (hline : IsLine cs) (hend : column = s.column + (doubled cs).length + 1) :
    s.run (doubled cs ++ '\'' :: rest) = { s with
      mode := .singleQuote (cs.reverse ++ blanks ++ read), column := column }.run rest := by
  subst hend
  induction cs generalizing s read blanks with
  | nil => exact run_cons (add_single_quote hmode hcolumn) rfl
  | cons c cs ih =>
    obtain ⟨hprintable, hbreak⟩ := hline c List.mem_cons_self
    by_cases hquote : c = '\''
    · -- The first quote seems to end the scalar, the second one takes it up again.
      subst hquote
      have hnext := ih (s := { s with mode := .single ('\'' :: (blanks ++ read)) .none
                                      column := s.column + 1 + 1 })
        rfl (Nat.succ_ne_zero _) hline.tail
      have hsecond : ({ s with mode := .singleQuote (blanks ++ read)
                               column := s.column + 1 } : ScanState).add '\''
          (doubled cs ++ '\'' :: rest) =
            .ok { s with mode := .single ('\'' :: (blanks ++ read)) .none
                         column := s.column + 1 } := rfl
      have hend : s.column + 1 + 1 + (doubled cs).length =
          s.column + (doubled ('\'' :: cs)).length := by
        simp only [doubled_cons, if_pos, List.length_append, List.length_cons, List.length_nil]
        omega
      rw [← hend, doubled_cons, if_pos rfl, List.append_assoc, List.cons_append,
        run_cons (add_single_quote hmode hcolumn) rfl]
      refine (run_cons hsecond rfl).trans ?_
      simpa using hnext
    · have hend : s.column + 1 + (doubled cs).length = s.column + (doubled (c :: cs)).length := by
        simp only [doubled_cons, if_neg hquote, List.length_append, List.length_singleton]
        omega
      rw [← hend, doubled_cons, if_neg hquote, List.append_assoc, List.cons_append,
        List.nil_append, List.reverse_cons]
      by_cases hspace : c = ' '
      · subst hspace
        have hnext := ih (s := { s with mode := .single read (.blanks (' ' :: blanks))
                                        column := s.column + 1 })
          rfl (Nat.succ_ne_zero _) hline.tail
        rw [run_cons (add_single_blank hmode) rfl]
        simpa using hnext
      · have hnext := ih (s := { s with mode := .single (c :: blanks ++ read) .none
                                        column := s.column + 1 })
          rfl (Nat.succ_ne_zero _) hline.tail
        rw [run_cons (add_single hmode hcolumn (isBlank_eq_false hprintable hspace) hbreak hquote)
          hbreak]
        simpa using hnext

end Scalars

section Starts

structure StartsToken (c : Char) : Prop where
  blank : isBlank c = false
  inLine : isBreak c = false
  comment : c ≠ '#'
  mark : c ≠ '\ufeff'

theorem addBetween_of_starts (h : StartsToken c) : s.addBetween c cs = s.startToken c cs := by
  have hblank := h.blank
  simp only [isBlank, Bool.or_eq_false_iff, decide_eq_false_iff_not] at hblank
  simp [addBetween, h.mark, hblank, h.comment, h.inLine]

theorem dropKeys_of_keep {drop : PossibleKey → Bool} (hkey : ∀ k ∈ s.key, drop k = false)
    (houter : s.outerKeys = []) : s.dropKeys drop = .ok s := by
  obtain ⟨mode, column, done, indents, key, outerKeys, mayStartKey⟩ := s
  cases houter
  cases key with
  | none => rfl
  | some k =>
    have hk : drop k = false := hkey k rfl
    simp [dropKeys, hk]

theorem startToken_plain (h : IsPlain (c :: cs)) (hkey : s.key = none) (houter : s.outerKeys = [])
    (hclose : s.closeBlocks s.column = s) (hrest : ∀ d ∈ rest.head?, d ≠ '-' ∧ d ≠ '.') :
    s.startToken c (cs ++ rest) = s.startScalar (.plain [c] .none) := by
  obtain ⟨hindicator, hdash⟩ := isIndicator_of_startsMarkup h.start
  have hmarker : isMarker (c :: (cs ++ rest)) = false := isMarker_of_startsMarkup h.start hrest
  have hne : ∀ d, isIndicator d = true → c ≠ d := by
    rintro d hd rfl
    rw [hindicator] at hd
    cases hd
  have hcolon : ¬ (c = ':' ∧ isGap (cs ++ rest) = true) := by
    rintro ⟨rfl, hgap⟩
    rw [isGap_append (isGap_of_breaksPlain h.inside)] at hgap
    cases hgap
  have hmark : ∀ d, d = '-' ∨ d = '?' → ¬ (c = d ∧ isGap (cs ++ rest) = true) := by
    rintro d hd ⟨rfl, hgap⟩
    rw [isGap_append (hdash hd)] at hgap
    cases hgap
  have hblank : isBlank c = false :=
    isBlank_eq_false (h.line c List.mem_cons_self).1 fun heq => h.first (congrArg some heq)
  have hbraces : s.inBraces = false := by
    rw [inBraces, houter]
    rfl
  rw [startToken, dropKeys_of_keep (by simp [hkey]) houter, ok_bind, hclose]
  simp only [hbraces, hmarker, hindicator, hblank, hne '\x7b' rfl, hne '\x7d' rfl, hne ',' rfl,
    hne '|' rfl, hne '>' rfl, hne '\'' rfl, hne '"' rfl, hcolon, hmark '-' (.inl rfl),
    hmark '?' (.inr rfl), Bool.false_or, Bool.false_eq_true, and_false, false_and, or_false,
    if_false]

theorem startToken_quote (hkey : s.key = none) (houter : s.outerKeys = [])
    (hclose : s.closeBlocks s.column = s) :
    s.startToken '\'' cs = s.startScalar (.single [] .none) := by
  rw [startToken, dropKeys_of_keep (by simp [hkey]) houter, ok_bind, hclose]
  have hmarker : isMarker ('\'' :: cs) = false := rfl
  simp [hmarker]

def noted (column : Nat) (done : List Token) (indents : List Nat) (mayStartKey : Bool) :
    ScanState :=
  { between column done indents false with
    key := if mayStartKey then some ⟨done.length, column, indents.head? = some column⟩ else none }

theorem startScalar_between (column : Nat) (done : List Token) (indents : List Nat)
    (mayStartKey : Bool) (mode : ScanMode) :
    (between column done indents mayStartKey).startScalar mode =
      .ok { noted column done indents mayStartKey with mode := mode } := by
  cases mayStartKey <;> rfl

theorem starts_plain (h : IsPlain (c :: cs)) : StartsToken c := by
  obtain ⟨hprintable, hbreak⟩ := h.line c List.mem_cons_self
  refine ⟨isBlank_eq_false hprintable fun heq => h.first (congrArg some heq), hbreak, ?_, ?_⟩
  · rintro rfl
    cases (isIndicator_of_startsMarkup h.start).1
  · rintro rfl
    cases hprintable

/-- A written scalar is read up to what shows its end. -/
theorem run_scalar (h : Writes sc w) (done : List Token) (mayStartKey : Bool)
    (rest : List Char) (hle : ∀ n ∈ indents.head?, n ≤ column)
    (hrest : rest.head? = some ':' ∨ rest.head? = some '\n') :
    ∃ σ, Holds { noted column done indents mayStartKey with column := column + w.length } sc σ ∧
      (between column done indents mayStartKey).run (w ++ rest) = σ.run rest := by
  have hclose : (between column done indents mayStartKey).closeBlocks column =
      between column done indents mayStartKey := closeBlocks_of_le hle
  have hnext : ∀ d ∈ rest.head?, d ≠ '-' ∧ d ≠ '.' := by
    rintro d hd
    rw [Option.mem_def] at hd
    rcases hrest with hrest | hrest <;> rw [hd] at hrest <;> cases hrest <;> decide
  cases h with
  | @plain text hplain =>
    cases htext : text.toList with
    | nil =>
      rw [htext] at hplain
      cases hplain.start
    | cons c cs =>
      rw [htext] at hplain
      have hadd : (between column done indents mayStartKey).add c (cs ++ rest) =
          .ok { noted column done indents mayStartKey with mode := .plain [c] .none } :=
        (addBetween_of_starts (starts_plain hplain)).trans
          ((startToken_plain hplain rfl rfl hclose hnext).trans (startScalar_between ..))
      have hread : String.ofList (cs.reverse ++ [] ++ [c]).reverse = text := by
        simp [← htext]
      have hcolumn : column + (c :: cs).length = column + 1 + cs.length := by
        rw [List.length_cons]
        omega
      refine ⟨_, .plain hread, ?_⟩
      rw [List.cons_append, run_cons hadd (hplain.line c List.mem_cons_self).2]
      exact run_plain rfl rfl hplain.line.tail (breaksPlain_tail hplain.inside) nofun
        (getLast?_tail hplain.last) (fun _ => rfl) hcolumn
  | @quoted text hline =>
    have hadd : (between column done indents mayStartKey).add '\''
        (doubled text.toList ++ '\'' :: rest) =
          .ok { noted column done indents mayStartKey with mode := .single [] .none } :=
      (addBetween_of_starts ⟨rfl, rfl, by decide, by decide⟩).trans
        ((startToken_quote rfl rfl hclose).trans (startScalar_between ..))
    have hread : String.ofList (text.toList.reverse ++ [] ++ []).reverse = text := by simp
    have hcolumn : column + ('\'' :: doubled text.toList ++ ['\'']).length =
        column + 1 + (doubled text.toList).length + 1 := by
      simp only [List.cons_append, List.length_cons, List.length_append, List.length_nil]
      omega
    refine ⟨_, .quoted hread, ?_⟩
    rw [List.cons_append, List.cons_append, List.append_assoc, List.singleton_append,
      run_cons hadd rfl]
    exact run_single rfl (Nat.succ_ne_zero _) hline hcolumn

end Starts

section Lines

inductive Outdents (limit : Nat) : List Char → Prop where
  | nil : Outdents limit []
  | token {column : Nat} {c : Char} {cs : List Char} :
    column < limit → StartsToken c → Outdents limit (spaces column ++ c :: cs)

theorem Outdents.mono {m : Nat} (h : Outdents n rest) (hle : n ≤ m) : Outdents m rest := by
  cases h with
  | nil => exact .nil
  | token hlt hc => exact .token (Nat.lt_of_lt_of_le hlt hle) hc

def pending (column : Nat) (done : List Token) (indents : List Nat) (read : List Char) :
    ScanState :=
  ⟨.plain read (.breaks (some '\n') []), column, done, indents, none, [], false⟩

variable {read : List Char} {text : String} {outer : List Nat}

theorem run_pending_spaces (m column : Nat) :
    (pending column done indents read).run (spaces m ++ rest) =
      (pending (column + m) done indents read).run rest :=
  run_indentation (s := pending 0 done indents read) (fun _ _ => rfl) m column

/-- Before a token that is not indented for it a plain scalar has ended. -/
theorem run_pending (hread : String.ofList read.reverse = text) (h : Outdents (n + 1) rest) :
    (pending 0 done (n :: outer) read).run rest =
      (lineStart (.scalar ⟨text, true⟩ :: done) (n :: outer)).run rest := by
  subst hread
  cases h with
  | nil => rfl
  | @token m c cs hlt hc =>
    have hdeeper : (pending (0 + m) done (n :: outer) read).column <
        (pending (0 + m) done (n :: outer) read).deeper :=
      lt_of_eq_of_lt (Nat.zero_add m) hlt
    have hends : (pending (0 + m) done (n :: outer) read).endsPlain (.breaks (some '\n') []) c cs =
        true := by
      rw [endsPlain, decide_eq_true hdeeper]
      rfl
    have hadd : (pending (0 + m) done (n :: outer) read).add c cs =
        (between (0 + m) (.scalar ⟨String.ofList read.reverse, true⟩ :: done) (n :: outer) true).add
          c cs := by
      change addPlain _ read _ c cs = _
      simp only [addPlain, hc.blank, hc.inLine, hends]
      rfl
    rw [run_pending_spaces, lineStart, run_spaces, run, run, hadd]

theorem Holds.run_break {k : Nat} (h : Holds { noted column done (n :: outer) false with
    column := k } sc σ) (hrest : Outdents (n + 1) rest) :
    σ.run ('\n' :: rest) = (lineStart (.scalar sc :: done) (n :: outer)).run rest := by
  cases h with
  | @plain read _ hread =>
    have hadd : ({ noted column done (n :: outer) false with
        column := k, mode := .plain read .none } : ScanState).add '\n' rest =
          .ok (pending k done (n :: outer) read) := rfl
    exact (ScanState.run_break hadd rfl rfl).trans (run_pending hread hrest)
  | @quoted read _ hread =>
    subst hread
    have hadd : ({ noted column done (n :: outer) false with
        column := k, mode := .singleQuote read } : ScanState).add '\n' rest =
          .ok (between k (.scalar ⟨String.ofList read.reverse, false⟩ :: done) (n :: outer) true) :=
      rfl
    exact ScanState.run_break hadd rfl rfl

theorem run_newline (column : Nat) :
    (between column done indents false).run ('\n' :: rest) = (lineStart done indents).run rest := by
  have hadd : (between column done indents false).add '\n' rest =
    .ok (between column done indents true) := rfl
  exact ScanState.run_break hadd rfl rfl

theorem blockEnds_cons (ns : List Nat) : ns.map (fun _ => Token.blockEnd) ++ .blockEnd :: done =
    .blockEnd :: (ns.map (fun _ => Token.blockEnd) ++ done) := by
  induction ns with
  | nil => rfl
  | cons m ns ih => rw [List.map_cons, List.cons_append, ih, List.cons_append]

theorem closeBlocks_between (k column : Nat) (done : List Token) (indents : List Nat) :
    (between column done indents true).closeBlocks k =
      between column ((indents.takeWhile (k < ·)).map (fun _ => .blockEnd) ++ done)
        (indents.dropWhile (k < ·)) true := by
  rw [closeBlocks, List.span_eq_takeWhile_dropWhile]
  rfl

theorem closeBlocks_outer (h : column < n) :
    (between column done (n :: outer) true).closeBlocks column =
      (between column (.blockEnd :: done) outer true).closeBlocks column := by
  have hn : decide (column < n) = true := decide_eq_true h
  rw [closeBlocks_between, closeBlocks_between, List.takeWhile_cons, List.dropWhile_cons, if_pos hn,
    if_pos hn, List.map_cons, List.cons_append, blockEnds_cons]

/-- A mapping has ended before a token that is less deep. -/
theorem run_outer (h : Outdents n rest) :
    (lineStart done (n :: outer)).run rest = (lineStart (.blockEnd :: done) outer).run rest := by
  cases h with
  | nil =>
    have hclose : (lineStart done (n :: outer)).closeAll =
        (lineStart (.blockEnd :: done) outer).closeAll := by
      simp only [closeAll, lineStart, between, List.map_cons, List.cons_append, blockEnds_cons]
    change finish _ = finish _
    change (do
      let s ← (lineStart done (n :: outer)).closeAll.dropKey
      return s.done.reverse : Except YamlError (List Token)) = _
    rw [hclose]
    rfl
  | @token m c cs hlt hc =>
    have hm : 0 + m < n := by omega
    have hadd : (between (0 + m) done (n :: outer) true).add c cs =
        (between (0 + m) (.blockEnd :: done) outer true).add c cs := by
      refine (addBetween_of_starts hc).trans (Eq.trans ?_ (addBetween_of_starts hc).symm)
      -- Once the mappings are closed for the token, nothing tells the two states apart.
      rw [startToken, startToken, dropKeys_of_keep (by simp [between]) rfl,
        dropKeys_of_keep (by simp [between]) rfl, ok_bind, ok_bind]
      have hclose : (between (0 + m) done (n :: outer) true).closeBlocks (0 + m) =
          (between (0 + m) (.blockEnd :: done) outer true).closeBlocks (0 + m) :=
        closeBlocks_outer hm
      have hcolumn : ∀ done indents, (between (0 + m) done indents true).column = 0 + m :=
        fun _ _ => rfl
      simp only [hcolumn, hclose]
    rw [lineStart, lineStart, run_spaces, run_spaces, run, run, hadd]

end Lines

section Keys

theorem insertAt_append {α : Type} (x : α) (front back : List α) :
    insertAt back.length x (front ++ back) = front ++ x :: back := by
  rw [insertAt, List.length_append, Nat.add_sub_cancel]
  induction front with
  | nil => rfl
  | cons y front ih => simpa using ih

theorem startToken_colon (hgap : isGap rest = true) (hclose : s.closeBlocks s.column = s)
    (hkey : ∀ k ∈ s.key, s.column ≤ k.column + maxKeySize) (houter : s.outerKeys = []) :
    s.startToken ':' rest = s.addColon := by
  have hdrop : ∀ k ∈ s.key, decide (k.column + maxKeySize < s.column) = false :=
    fun k hk => decide_eq_false (Nat.not_lt.2 (hkey k hk))
  have hmarker : isMarker (':' :: rest) = false := rfl
  rw [startToken, dropKeys_of_keep hdrop houter, ok_bind, hclose]
  simp [hgap, hmarker]

def keyed (sc : YamlScalar) (size column : Nat) (done : List Token) (indents : List Nat) :
    ScanState :=
  ⟨.between, column + size, .scalar sc :: done, indents,
    some ⟨done.length, column, indents.head? = some column⟩, [], false⟩

theorem run_key (h : Writes sc w) (hsize : w.length ≤ maxKeySize) (hgap : isGap rest = true)
    (hle : ∀ n ∈ indents.head?, n ≤ column)
    (hcolon : (keyed sc w.length column done indents).addColon = .ok s') :
    (between column done indents true).run (w ++ ':' :: rest) =
      { s' with column := s'.column + 1 }.run rest := by
  obtain ⟨σ, hσ, hrun⟩ := run_scalar h done true (':' :: rest) hle (.inl rfl)
  have hclose : (keyed sc w.length column done indents).closeBlocks (column + w.length) =
      keyed sc w.length column done indents :=
    closeBlocks_of_le fun n hn => Nat.le_add_right_of_le (hle n hn)
  have hkey : ∀ k ∈ (keyed sc w.length column done indents).key,
      column + w.length ≤ k.column + maxKeySize := by
    rintro k hk
    cases hk
    exact Nat.add_le_add_left hsize column
  have hadd : σ.add ':' rest = .ok s' :=
    (hσ.add_colon hgap).trans ((addBetween_of_starts ⟨rfl, rfl, by decide, by decide⟩).trans
      ((startToken_colon hgap hclose hkey rfl).trans hcolon))
  rw [hrun, run_cons hadd rfl]

/-- The first key of a mapping opens it. -/
theorem run_first_key (h : Writes sc w) (hsize : w.length ≤ maxKeySize) (hgap : isGap rest = true)
    (hlt : ∀ n ∈ indents.head?, n < column) :
    (between column done indents true).run (w ++ ':' :: rest) =
      (between (column + w.length + 1) (.colon :: .scalar sc :: .key :: .blockStart :: done)
        (column :: indents) false).run rest := by
  have hkey : insertAt done.length .key (.scalar sc :: done) = .scalar sc :: .key :: done :=
    insertAt_append _ [_] done
  have hstart : insertAt done.length .blockStart (.scalar sc :: .key :: done) =
      .scalar sc :: .key :: .blockStart :: done := insertAt_append _ [_, _] done
  have hdeeper : ¬ column < indents.head?.elim 0 (· + 1) := by
    rw [Nat.not_lt]
    cases indents with
    | nil => exact Nat.zero_le column
    | cons n ns => exact hlt n rfl
  have hcolon : (keyed sc w.length column done indents).addColon =
      .ok (between (column + w.length) (.colon :: .scalar sc :: .key :: .blockStart :: done)
        (column :: indents) false) := by
    simp [addColon, keyed, hkey, hstart, openBlock, deeper, hdeeper, between, emit, inBraces]
  exact run_key h hsize hgap (fun n hn => Nat.le_of_lt (hlt n hn)) hcolon

theorem run_next_key (h : Writes sc w) (hsize : w.length ≤ maxKeySize) (hgap : isGap rest = true)
    (outer : List Nat) : (between column done (column :: outer) true).run (w ++ ':' :: rest) =
      (between (column + w.length + 1) (.colon :: .scalar sc :: .key :: done)
        (column :: outer) false).run rest := by
  have hcolon : (keyed sc w.length column done (column :: outer)).addColon =
      .ok (between (column + w.length) (.colon :: .scalar sc :: .key :: done)
        (column :: outer) false) := by
    have hkey : insertAt done.length .key (.scalar sc :: done) = .scalar sc :: .key :: done :=
      insertAt_append _ [_] done
    simp [addColon, keyed, hkey, openBlock, deeper, between, emit, inBraces]
  exact run_key h hsize hgap (forall_head (Nat.le_refl column)) hcolon

end Keys

/-- Braces without entries between them. -/
theorem run_braces (hle : ∀ n ∈ indents.head?, n ≤ column) :
    (between column done indents false).run ('\x7b' :: '\x7d' :: '\n' :: rest) =
      (lineStart (.closeMap :: .openMap :: done) indents).run rest := by
  have hopen : (between column done indents false).add '\x7b' ('\x7d' :: '\n' :: rest) =
      .ok ⟨.between, column, .openMap :: done, indents, none, [none], true⟩ := by
    have hclose : (between column done indents false).closeBlocks
        (between column done indents false).column = between column done indents false :=
      closeBlocks_of_le hle
    have hmarker : isMarker ('\x7b' :: '\x7d' :: '\n' :: rest) = false := rfl
    refine (addBetween_of_starts ⟨rfl, rfl, by decide, by decide⟩).trans ?_
    rw [startToken, dropKeys_of_keep (by simp [between]) rfl, ok_bind, hclose]
    simp [hmarker]
    rfl
  have hshut : (⟨.between, column + 1, .openMap :: done, indents, none, [none], true⟩ :
      ScanState).add '\x7d' ('\n' :: rest) =
        .ok (between (column + 1) (.closeMap :: .openMap :: done) indents false) :=
    addBetween_of_starts ⟨rfl, rfl, by decide, by decide⟩
  exact (run_cons hopen rfl).trans ((run_cons hshut rfl).trans (run_newline _))

end PointsTo.Yaml.ScanState
