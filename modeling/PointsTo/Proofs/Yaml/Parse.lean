import PointsTo.Proofs.Yaml.Scan
import PointsTo.Yaml.Parse

/-! Mappings whose scalars fit on lines are read back from their documents. A string comes back in
the style that it was written in. -/
namespace PointsTo.Yaml

open ScanState

def writtenScalar (s : YamlScalar) : YamlScalar := ⟨s.text, s.isPlain || style s.text = .plain⟩

def FitsLine : YamlScalar → Prop
  | ⟨s, true⟩ => IsPlain s.toList
  | ⟨s, false⟩ => IsLine s.toList

structure FitsKey (k : String) : Prop where
  line : IsLine k.toList
  size : ∀ indent, (stringChars indent k).length ≤ maxKeySize

mutual

def Fits : Yaml → Prop
  | scalar s => FitsLine s
  | mapping entries => FitsEntries entries

def FitsEntries : List (String × Yaml) → Prop
  | [] => True
  | (k, v) :: es => FitsKey k ∧ Fits v ∧ FitsEntries es

end

mutual

def written : Yaml → Yaml
  | scalar s => scalar (writtenScalar s)
  | mapping entries => mapping (writtenEntries entries)

def writtenEntries : List (String × Yaml) → List (String × Yaml)
  | [] => []
  | (k, v) :: es => (k, written v) :: writtenEntries es

end

mutual

def tokens : Yaml → List Token
  | scalar s => [.scalar (writtenScalar s)]
  | mapping [] => [.openMap, .closeMap]
  | mapping (e :: es) => .blockStart :: entryTokens (e :: es) ++ [.blockEnd]

def entryTokens : List (String × Yaml) → List Token
  | [] => []
  | (k, v) :: es =>
    .key :: .scalar (writtenScalar ⟨k, false⟩) :: .colon :: tokens v ++ entryTokens es

end

section Scanning

variable {s : YamlScalar} {k : String} {es : List (String × Yaml)} {w rest : List Char}
  {n limit : Nat}

theorem getLast?_of_writes (h : Writes s w) : w.getLast?.any isBreak = false := by
  cases h with
  | plain hplain => exact getLast?_isBreak_of_line hplain.line
  | quoted hline =>
    rw [List.getLast?_append]
    rfl

theorem writes_scalarChars (indent : Nat) (h : FitsLine s) :
    ∃ w, Writes (writtenScalar s) w ∧ scalarChars indent s = w ++ ['\n'] := by
  obtain ⟨text, isPlain⟩ := s
  cases isPlain with
  | true =>
    have hwrites : Writes ⟨text, true⟩ text.toList := .plain h
    refine ⟨text.toList, hwrites, ?_⟩
    simp [scalarChars, getLast?_of_writes hwrites]
  | false =>
    have hwrites := writes_stringChars indent h
    refine ⟨stringChars indent text, hwrites, ?_⟩
    simp [scalarChars, getLast?_of_writes hwrites]

theorem starts_of_writes (h : Writes s w) : ∃ c cs, w = c :: cs ∧ StartsToken c := by
  cases h with
  | @plain text hplain =>
    cases htext : text.toList with
    | nil =>
      rw [htext] at hplain
      cases hplain.start
    | cons c cs =>
      rw [htext] at hplain
      exact ⟨c, cs, rfl, starts_plain hplain⟩
  | quoted => exact ⟨_, _, rfl, rfl, rfl, by decide, by decide⟩

theorem entriesChars_cons (n : Nat) (k : String) (v : Yaml) (es : List (String × Yaml))
    (rest : List Char) : entriesChars n ((k, v) :: es) ++ rest = spaces n ++
      (stringChars n k ++ ':' :: (valueChars n v ++ (entriesChars n es ++ rest))) := by
  rw [entriesChars]
  simp

theorem outdents_entries (hlt : n < limit) (h : FitsEntries es) (hrest : Outdents limit rest) :
    Outdents limit (entriesChars n es ++ rest) := by
  cases es with
  | nil => exact hrest
  | cons e es =>
    obtain ⟨k, v⟩ := e
    obtain ⟨c, cs, hkey, hc⟩ := starts_of_writes (writes_stringChars n h.1.line)
    rw [entriesChars_cons, hkey]
    exact .token hlt hc

theorem isGap_valueChars (n : Nat) (v : Yaml) (rest : List Char) :
    isGap (valueChars n v ++ rest) = true := by
  cases v with
  | scalar s => rfl
  | mapping es => cases es <;> rfl

mutual

theorem run_value : ∀ (v : Yaml) (n column : Nat) (done : List Token) (outer : List Nat)
    (rest : List Char), Fits v → n < column → Outdents (n + 1) rest →
      (between column done (n :: outer) false).run (valueChars n v ++ rest) =
        (lineStart ((tokens v).reverse ++ done) (n :: outer)).run rest
  | scalar s, n, column, done, outer, rest, h, hlt, hrest => by
    obtain ⟨w, hw, hchars⟩ := writes_scalarChars (n + 2) h
    have hle : ∀ m ∈ (n :: outer).head?, m ≤ column + 1 := forall_head (by omega)
    obtain ⟨σ, hσ, hrun⟩ := run_scalar hw done false ('\n' :: rest) hle (.inr rfl)
    have hvalue : valueChars n (scalar s) ++ rest = spaces 1 ++ (w ++ '\n' :: rest) := by
      rw [valueChars, hchars]
      simp [spaces]
    rw [hvalue, run_spaces, hrun, hσ.run_break hrest]
    rfl
  | mapping [], n, column, done, outer, rest, _, hlt, _ => by
    have hle : ∀ m ∈ (n :: outer).head?, m ≤ column + 1 := forall_head (by omega)
    have hvalue : valueChars n (mapping []) ++ rest =
      spaces 1 ++ '\x7b' :: '\x7d' :: '\n' :: rest := rfl
    rw [hvalue, run_spaces, run_braces hle]
    rfl
  | mapping (e :: es), n, column, done, outer, rest, h, _, hrest => by
    have hlt : ∀ m ∈ (n :: outer).head?, m < n + 2 := forall_head (by omega)
    have hblock := run_block (e :: es) (n + 2) done (n :: outer) rest nofun h hlt
      (hrest.mono (Nat.le_succ _))
    rw [valueChars, List.cons_append, run_newline, hblock]
    rfl

theorem run_entries : ∀ (es : List (String × Yaml)) (n : Nat) (done : List Token)
    (outer : List Nat) (rest : List Char), FitsEntries es → Outdents (n + 1) rest →
      (lineStart done (n :: outer)).run (entriesChars n es ++ rest) =
        (lineStart ((entryTokens es).reverse ++ done) (n :: outer)).run rest
  | [], _, _, _, _, _, _ => rfl
  | (k, v) :: es, n, done, outer, rest, ⟨hk, hv, hes⟩, hrest => by
    have hkey := writes_stringChars n hk.line
    rw [entriesChars_cons, lineStart, run_spaces, Nat.zero_add,
      run_next_key hkey (hk.size n) (isGap_valueChars ..),
      run_value v n _ _ outer _ hv (by omega) (outdents_entries (Nat.lt_succ_self n) hes hrest),
      run_entries es n _ outer rest hes hrest]
    simp [entryTokens, writtenScalar]

/-- A mapping on lines of its own, with its start and end. -/
theorem run_block : ∀ (es : List (String × Yaml)) (n : Nat) (done : List Token)
    (outer : List Nat) (rest : List Char), es ≠ [] → FitsEntries es →
      (∀ m ∈ outer.head?, m < n) → Outdents n rest →
      (lineStart done outer).run (entriesChars n es ++ rest) =
        (lineStart ((Token.blockStart :: entryTokens es ++ [Token.blockEnd]).reverse ++ done)
          outer).run rest
  | [], _, _, _, _, h, _, _, _ => absurd rfl h
  | (k, v) :: es, n, done, outer, rest, _, ⟨hk, hv, hes⟩, hlt, hrest => by
    have hkey := writes_stringChars n hk.line
    have hinner := hrest.mono (Nat.le_succ n)
    rw [entriesChars_cons, lineStart, run_spaces, Nat.zero_add,
      run_first_key hkey (hk.size n) (isGap_valueChars ..) hlt,
      run_value v n _ _ outer _ hv (by omega) (outdents_entries (Nat.lt_succ_self n) hes hinner),
      run_entries es n _ outer rest hes hinner, run_outer hrest]
    simp [entryTokens, writtenScalar, lineStart]

end

end Scanning

section Parsing

variable {around : Around}

theorem foldlM_first (e : String × Yaml) (es : List (String × Yaml)) (ts : List Token) :
    (entryTokens (e :: es) ++ ts).foldlM ParseState.next (.entry ⟨false, []⟩ around) =
      (entryTokens (e :: es) ++ ts).foldlM ParseState.next (.entryEnd ⟨false, []⟩ around) := rfl

mutual

theorem foldlM_value : ∀ (v : Yaml) (m : OpenMap) (k : String) (around : Around),
    (tokens v).foldlM ParseState.next (.value m k around) =
      .ok (.entryEnd (m.add k v.written) around)
  | scalar _, _, _, _ => rfl
  | mapping [], _, _, _ => rfl
  | mapping (e :: es), m, k, around => by
    have hstart : ParseState.next (.value m k around) .blockStart =
      .ok (.entry ⟨false, []⟩ ((m, k) :: around)) := rfl
    rw [tokens, List.cons_append, List.foldlM_cons, hstart, ok_bind, foldlM_first,
      List.foldlM_append, foldlM_entries (e :: es) [] ((m, k) :: around), ok_bind,
      List.append_nil]
    simp [ParseState.next, ParseState.atEntryEnd, ParseState.atEntry, ParseState.close, written]

theorem foldlM_entries : ∀ (es done : List (String × Yaml)) (around : Around),
    (entryTokens es).foldlM ParseState.next (.entryEnd ⟨false, done⟩ around) =
      .ok (.entryEnd ⟨false, (writtenEntries es).reverse ++ done⟩ around)
  | [], _, _ => rfl
  | (k, v) :: es, done, around => by
    have hstart : [Token.key, .scalar (writtenScalar ⟨k, false⟩), .colon].foldlM ParseState.next
        (.entryEnd ⟨false, done⟩ around) = .ok (.value ⟨false, done⟩ k around) := rfl
    have htokens : entryTokens ((k, v) :: es) =
        [.key, .scalar (writtenScalar ⟨k, false⟩), .colon] ++ (tokens v ++ entryTokens es) := rfl
    rw [htokens, List.foldlM_append, hstart, ok_bind, List.foldlM_append, foldlM_value v, ok_bind]
    refine (foldlM_entries es ((k, v.written) :: done) around).trans ?_
    rw [writtenEntries, List.reverse_cons, List.append_assoc]
    rfl

end

theorem ofTokens_mapping (es : List (String × Yaml)) :
    ofTokens (tokens (mapping es)) = .ok (mapping (writtenEntries es)) := by
  cases es with
  | nil => rfl
  | cons e es =>
    have hstart : ParseState.next .start .blockStart = .ok (.entry ⟨false, []⟩ []) := rfl
    rw [ofTokens, tokens, List.cons_append, List.foldlM_cons, hstart, ok_bind, foldlM_first,
      List.foldlM_append, foldlM_entries, ok_bind, List.append_nil]
    simp [ParseState.next, ParseState.atEntryEnd, ParseState.atEntry, ParseState.close,
      ParseState.result]

end Parsing

section Characters

variable {s : YamlScalar} {w cs : List Char}

theorem unifyBreaks_of_stable (h : ∀ c ∈ cs, IsStable c) : unifyBreaks cs = cs := by
  fun_induction unifyBreaks cs with
  | case1 => rfl
  | case2 cs _ => exact absurd rfl (h '\r' List.mem_cons_self).carriage
  | case3 c cs _ ih =>
    obtain ⟨hc, hcs⟩ := List.forall_mem_cons.1 h
    rw [if_neg (not_or.2 ⟨hc.carriage, hc.nextLine⟩), ih hcs]

theorem stable_of_line (h : IsLine cs) : ∀ c ∈ cs, IsStable c :=
  fun c hc => isStable_of_isPrintable (h c hc).1

theorem stable_of_writes (h : Writes s w) : ∀ c ∈ w, IsStable c := by
  cases h with
  | plain hplain => exact stable_of_line hplain.line
  | quoted hline =>
    have hquote : IsStable '\'' := ⟨rfl, by decide, by decide⟩
    exact List.forall_mem_append.2 ⟨List.forall_mem_cons.2 ⟨hquote, stable_of_line hline.doubled⟩,
      List.forall_mem_singleton.2 hquote⟩

theorem stable_spaces (n : Nat) : ∀ c ∈ spaces n, IsStable c := by
  intro c hc
  rw [List.eq_of_mem_replicate hc]
  exact ⟨rfl, by decide, by decide⟩

mutual

theorem stable_value : ∀ (v : Yaml) (n : Nat), Fits v → ∀ c ∈ valueChars n v, IsStable c
  | scalar s, n, h => by
    obtain ⟨w, hw, hchars⟩ := writes_scalarChars (n + 2) h
    rw [valueChars, hchars]
    exact List.forall_mem_cons.2 ⟨⟨rfl, by decide, by decide⟩, List.forall_mem_append.2
      ⟨stable_of_writes hw, List.forall_mem_singleton.2 ⟨rfl, by decide, by decide⟩⟩⟩
  | mapping [], _, _ => by
    intro c hc
    rcases List.mem_cons.1 hc with rfl | hc
    · exact ⟨rfl, by decide, by decide⟩
    · simp only [List.mem_cons, List.not_mem_nil, or_false] at hc
      rcases hc with rfl | rfl | rfl <;> exact ⟨rfl, by decide, by decide⟩
  | mapping (e :: es), n, h =>
    List.forall_mem_cons.2 ⟨⟨rfl, by decide, by decide⟩, stable_entries (e :: es) (n + 2) h⟩

theorem stable_entries : ∀ (es : List (String × Yaml)) (n : Nat), FitsEntries es →
    ∀ c ∈ entriesChars n es, IsStable c
  | [], _, _ => nofun
  | (k, v) :: es, n, ⟨hk, hv, hes⟩ => by
    have hkey := stable_of_writes (writes_stringChars n hk.line)
    have hcolon : IsStable ':' := ⟨rfl, by decide, by decide⟩
    have hchars := entriesChars_cons n k v es []
    rw [List.append_nil, List.append_nil] at hchars
    rw [hchars]
    exact List.forall_mem_append.2 ⟨stable_spaces n, List.forall_mem_append.2 ⟨hkey,
      List.forall_mem_cons.2 ⟨hcolon, List.forall_mem_append.2
        ⟨stable_value v n hv, stable_entries es n hes⟩⟩⟩⟩

end

theorem tokenize_of_stable (h : ∀ c ∈ cs, IsStable c) :
    tokenize cs = ScanState.start.run cs := by
  have hallowed : cs.find? (!isAllowed ·) = none :=
    List.find?_eq_none.2 fun c hc => by simp [(h c hc).allowed]
  rw [tokenize, hallowed, unifyBreaks_of_stable h]

end Characters

/-- A mapping is read back from its document. -/
theorem parse_render {es : List (String × Yaml)} (h : FitsEntries es) :
    parse (render (mapping es)) = .ok (mapping (writtenEntries es)) := by
  cases es with
  | nil => rfl
  | cons e es =>
    have hrun := run_block (e :: es) 0 [] [] [] nofun h nofun .nil
    rw [List.append_nil, List.append_nil] at hrun
    have hfinish : (lineStart (tokens (mapping (e :: es))).reverse []).run [] =
        .ok (tokens (mapping (e :: es))).reverse.reverse := rfl
    have htokenize : tokenize (entriesChars 0 (e :: es)) = .ok (tokens (mapping (e :: es))) := by
      rw [tokenize_of_stable (stable_entries _ 0 h)]
      refine hrun.trans (hfinish.trans ?_)
      rw [List.reverse_reverse]
    rw [parse, render, String.toList_ofList, htokenize, ok_bind, ofTokens_mapping]

end PointsTo.Yaml
