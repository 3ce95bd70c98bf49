import PointsTo.Json.Print
import PointsTo.Proofs.Fault
import PointsTo.Proofs.Text.Digits

/-! Scanning what was written. A number or a word ends only at the character behind it, so what a
scan of a text leaves behind is told up to that next character. -/
namespace PointsTo.Json

variable {cs cs' : List Char} {ts ts' done : List Token} {σ : ScanState} {c : Char}

/-- All tokens are there, or the last one is once it ends. -/
inductive Settled (done : List Token) : ScanState → Prop where
  | between : Settled done (.between, done)
  | word {read before} : endWord read before = .ok done → Settled done (.word read, before)
  | number {read before} : endNumber read before = .ok done → Settled done (.number read, before)

structure IsDelimiter (c : Char) : Prop where
  number : isNumberChar c = false
  word : c.isLower = false

theorem Settled.scanChar (h : Settled done σ) (hc : IsDelimiter c) :
    scanChar σ c = startToken done c := by
  cases h with
  | between => rfl
  | word hend =>
    rw [Json.scanChar, hc.word, hend]
    rfl
  | number hend =>
    rw [Json.scanChar, hc.number, hend]
    rfl

theorem Settled.endScan (h : Settled done σ) : endScan σ = .ok done.reverse := by
  cases h with
  | between => rfl
  | word hend =>
    rw [Json.endScan, hend]
    rfl
  | number hend =>
    rw [Json.endScan, hend]
    rfl

def Scans (cs : List Char) (ts : List Token) : Prop :=
  ∀ done, ∃ σ, cs.foldlM scanChar (.between, done) = .ok σ ∧ Settled (ts.reverse ++ done) σ

theorem Scans.tokenize (h : Scans cs ts) : tokenize cs = .ok ts := by
  obtain ⟨σ, hσ, hsettled⟩ := h []
  rw [Json.tokenize, hσ, ok_bind, hsettled.endScan, List.append_nil, List.reverse_reverse]

theorem scans_nil : Scans [] [] := fun done => ⟨(.between, done), rfl, .between⟩

theorem Scans.token {t : Token} (hc : ∀ done, startToken done c = .ok (.between, t :: done))
    (h : Scans cs ts) : Scans (c :: cs) (t :: ts) := by
  intro done
  obtain ⟨σ, hσ, hsettled⟩ := h (t :: done)
  refine ⟨σ, ?_, ?_⟩
  · rw [List.foldlM_cons, scanChar, hc]
    exact hσ
  · rwa [List.reverse_cons, List.append_assoc]

theorem Scans.append (h : Scans cs ts) (hc : IsDelimiter c) (h' : Scans (c :: cs') ts') :
    Scans (cs ++ c :: cs') (ts ++ ts') := by
  intro done
  obtain ⟨σ, hσ, hsettled⟩ := h done
  obtain ⟨σ', hσ', hsettled'⟩ := h' (ts.reverse ++ done)
  refine ⟨σ', ?_, ?_⟩
  · rw [List.foldlM_append, hσ, ok_bind, List.foldlM_cons, hsettled.scanChar hc]
    rwa [List.foldlM_cons] at hσ'
  · rwa [List.reverse_append, List.append_assoc]

section Words

theorem scans_word {letters : List Char} {v : Json}
    (hread : ∀ done, letters.foldlM scanChar (.between, done) = .ok (.word letters.reverse, done))
    (hword : readWord letters = some v) : Scans letters [.scalar v] := by
  intro done
  refine ⟨_, hread done, .word ?_⟩
  rw [endWord, List.reverse_reverse, hword]
  rfl

theorem scans_null : Scans ['n', 'u', 'l', 'l'] [.scalar null] := scans_word (fun _ => rfl) rfl

theorem scans_bool (b : Bool) : Scans (compact (bool b)) [.scalar (bool b)] := by
  cases b with
  | true => exact scans_word (fun _ => rfl) rfl
  | false => exact scans_word (fun _ => rfl) rfl

end Words

section Numbers

theorem foldlM_number {read : List Char} (h : ∀ c ∈ cs, isNumberChar c = true) :
    cs.foldlM scanChar (.number read, done) = .ok (.number (cs.reverse ++ read), done) := by
  induction cs generalizing read with
  | nil => rfl
  | cons c cs ih =>
    obtain ⟨hc, hcs⟩ := List.forall_mem_cons.1 h
    rw [List.foldlM_cons, scanChar, if_pos hc, ok_bind, ih hcs, List.reverse_cons,
      List.append_assoc]
    rfl

theorem startToken_number (h : c.isDigit = true ∨ c = '-') (done : List Token) :
    startToken done c = .ok (.number [c], done) := by
  rcases h with h | rfl
  · have hne : ∀ d : Char, d.isDigit = false → c ≠ d := fun _ => ne_of_isDigit h
    have hblank : isBlank c = false := by
      simp only [isBlank, hne ' ' rfl, hne '\t' rfl, hne '\n' rfl, hne '\r' rfl, decide_false,
        Bool.or_false]
    simp [startToken, hblank, hne '[' rfl, hne ']' rfl, hne '\x7b' rfl, hne '\x7d' rfl, hne ',' rfl,
      hne ':' rfl, hne '"' rfl, h]
  · rfl

theorem isNumberChar_of_isDigit (h : c.isDigit = true) : isNumberChar c = true := by
  simp [isNumberChar, h]

theorem scans_number {v : Json} (hstart : ∃ c ∈ cs.head?, c.isDigit = true ∨ c = '-')
    (hcs : ∀ c ∈ cs, isNumberChar c = true) (hv : readNumber cs = some v) :
    Scans cs [.scalar v] := by
  obtain ⟨c, hc, hstart⟩ := hstart
  cases cs with
  | nil => cases hc
  | cons d cs =>
    cases Option.mem_some.1 hc
    intro done
    refine ⟨(.number (cs.reverse ++ [c]), done), ?_, .number ?_⟩
    · rw [List.foldlM_cons, scanChar, startToken_number hstart, ok_bind,
        foldlM_number (List.forall_mem_cons.1 hcs).2]
    · rw [endNumber, ← List.reverse_cons, List.reverse_reverse, hv]
      rfl

end Numbers

section Literals

variable {n : Nat} {rest : List Char}

theorem exists_head_digits (n : Nat) (rest : List Char) :
    ∃ c ∈ (Nat.toDigits 10 n ++ rest).head?, c.isDigit = true := by
  obtain ⟨c, cs, hdigits, hc⟩ := toDigits_eq_cons n
  exact ⟨c, by rw [hdigits]; rfl, hc⟩

theorem readExponent_int (e : Int) : readExponent ('e' :: intLiteral e) = some e := by
  cases e with
  | negSucc n =>
    rw [intLiteral, readExponent, readDigits_toDigits]
    rfl
  | ofNat n =>
    have hread := readDigits_toDigits n
    obtain ⟨c, cs, hdigits, hc⟩ := toDigits_eq_cons n
    rw [hdigits] at hread
    rw [intLiteral, hdigits, readExponent, hread]
    · rfl
    · exact fun ds heq => ne_of_isDigit hc rfl (List.cons.inj heq).1
    · exact fun ds heq => ne_of_isDigit hc rfl (List.cons.inj heq).1

theorem span_digits (n : Nat) (rest : List Char) (h : ∀ c ∈ rest.head?, c.isDigit = false) :
    (Nat.toDigits 10 n ++ rest).takeWhile Char.isDigit = Nat.toDigits 10 n ∧
      (Nat.toDigits 10 n ++ rest).dropWhile Char.isDigit = rest := by
  have hdigits : ∀ c ∈ Nat.toDigits 10 n, c.isDigit = true := fun _ => isDigit_of_mem_toDigits
  rw [List.takeWhile_append_of_pos hdigits, List.dropWhile_append_of_pos hdigits]
  cases rest with
  | nil => exact ⟨List.append_nil _, rfl⟩
  | cons c rest =>
    have hc := h c rfl
    simp [hc]

theorem readMagnitude_digits (negative : Bool) (n : Nat) :
    readMagnitude negative (Nat.toDigits 10 n) =
      some (if negative then if n = 0 then decimal true 0 0 else int (-n) else int n) := by
  obtain ⟨hwhole, hrest⟩ := span_digits n [] (by simp)
  rw [List.append_nil] at hwhole hrest
  have hzero : ¬ ((Nat.toDigits 10 n).head? = some '0' ∧ (Nat.toDigits 10 n).length ≠ 1) :=
    fun h => h.2 (length_toDigits_of_head? h.1)
  simp only [readMagnitude, hwhole, hrest, if_neg hzero, readDigits_toDigits]
  cases negative <;> simp

theorem readMagnitude_exponent (negative : Bool) (n : Nat) (e : Int) :
    readMagnitude negative (Nat.toDigits 10 n ++ 'e' :: intLiteral e) =
      some (decimal negative n e) := by
  obtain ⟨hwhole, hrest⟩ := span_digits n ('e' :: intLiteral e) (by simp)
  have hzero : ¬ ((Nat.toDigits 10 n).head? = some '0' ∧ (Nat.toDigits 10 n).length ≠ 1) :=
    fun h => h.2 (length_toDigits_of_head? h.1)
  simp [readMagnitude, hwhole, hrest, if_neg hzero, readDigits_toDigits, readExponent_int]

theorem readNumber_digits (n : Nat) (rest : List Char) :
    readNumber (Nat.toDigits 10 n ++ rest) = readMagnitude false (Nat.toDigits 10 n ++ rest) := by
  obtain ⟨c, hc, hdigit⟩ := exists_head_digits n rest
  cases hcs : Nat.toDigits 10 n ++ rest with
  | nil => rfl
  | cons d cs =>
    rw [hcs] at hc
    cases Option.mem_some.1 hc
    unfold readNumber
    split
    · next heq =>
      cases heq
      cases hdigit
    · rfl

theorem readNumber_int (n : Int) : readNumber (intLiteral n) = some (int n) := by
  cases n with
  | negSucc n =>
    rw [intLiteral, readNumber, readMagnitude_digits, if_pos rfl, if_neg (Nat.succ_ne_zero n)]
    rfl
  | ofNat n =>
    have hread := readNumber_digits n []
    rw [List.append_nil] at hread
    rw [intLiteral, hread, readMagnitude_digits]
    rfl

theorem readNumber_decimal (negative : Bool) (n : Nat) (e : Int) :
    readNumber (decimalLiteral negative n e) = some (decimal negative n e) := by
  cases negative with
  | true => exact readMagnitude_exponent true n e
  | false => exact (readNumber_digits n _).trans (readMagnitude_exponent false n e)

theorem isNumberChar_intLiteral (n : Int) : ∀ c ∈ intLiteral n, isNumberChar c = true := by
  have hdigits : ∀ (n : Nat), ∀ c ∈ Nat.toDigits 10 n, isNumberChar c = true :=
    fun n c hc => isNumberChar_of_isDigit (isDigit_of_mem_toDigits hc)
  cases n with
  | ofNat n => exact hdigits n
  | negSucc n => exact List.forall_mem_cons.2 ⟨rfl, hdigits (n + 1)⟩

theorem scans_int (n : Int) : Scans (intLiteral n) [.scalar (int n)] := by
  refine scans_number ?_ (isNumberChar_intLiteral n) (readNumber_int n)
  cases n with
  | negSucc n => exact ⟨'-', rfl, .inr rfl⟩
  | ofNat n =>
    obtain ⟨c, hc, hdigit⟩ := exists_head_digits n []
    rw [List.append_nil] at hc
    exact ⟨c, hc, .inl hdigit⟩

theorem scans_decimal (negative : Bool) (n : Nat) (e : Int) :
    Scans (decimalLiteral negative n e) [.scalar (decimal negative n e)] := by
  have hchars : ∀ c ∈ Nat.toDigits 10 n ++ 'e' :: intLiteral e, isNumberChar c = true := by
    refine List.forall_mem_append.2 ⟨?_, List.forall_mem_cons.2 ⟨rfl, isNumberChar_intLiteral e⟩⟩
    exact isNumberChar_intLiteral (.ofNat n)
  refine scans_number ?_ ?_ (readNumber_decimal negative n e)
  · cases negative with
    | true => exact ⟨'-', rfl, .inr rfl⟩
    | false =>
      obtain ⟨c, hc, hdigit⟩ := exists_head_digits n ('e' :: intLiteral e)
      exact ⟨c, hc, .inl hdigit⟩
  · cases negative with
    | true => exact List.forall_mem_cons.2 ⟨rfl, hchars⟩
    | false => exact hchars

end Literals

section Texts

/-- What a character of a literal is scanned as: those without a short escape below the blank are
given by their codes. -/
def unitOf (c : Char) : TextUnit :=
  if (shortEscape c).isNone ∧ c < ' ' then .code c.toNat else .char c

def isCoded (k : JsonText) : Bool := k.elim true fun s => s.toList.any fun c => (unitOf c).isCode

theorem shortEscape_eq_some {e : Char} (h : shortEscape c = some e) :
    e ≠ 'u' ∧ unescape e = some c := by
  unfold shortEscape at h
  split at h <;> cases h <;> decide

theorem scan_shortEscape {e : Char} (h : shortEscape c = some e) (read : List TextUnit) :
    ['\\', e].foldlM scanChar (.text read, done) = .ok (.text (.char c :: read), done) := by
  obtain ⟨hne, hunescape⟩ := shortEscape_eq_some h
  have hback : scanChar (.text read, done) '\\' = .ok (.escape read, done) := rfl
  rw [List.foldlM_cons, hback, ok_bind, List.foldlM_cons, scanChar, if_neg hne, hunescape]
  rfl

theorem digitValue?_hexDigit : ∀ d < 16, digitValue? (hexDigit d) = some d := by decide

theorem scanChar_hex {d : Nat} (hd : digitValue? c = some d) (read : List TextUnit)
    (missing value : Nat) : scanChar (.hex read missing value, done) c =
      .ok (if missing ≤ 1 then (.text (.code (value * 16 + d) :: read), done)
        else (.hex read (missing - 1) (value * 16 + d), done)) := by
  rw [scanChar, hd]
  dsimp only
  split <;> rfl

theorem scan_code (h : c < ' ') (read : List TextUnit) :
    ['\\', 'u', '0', '0', hexDigit (c.toNat / 16), hexDigit (c.toNat % 16)].foldlM scanChar
      (.text read, done) = .ok (.text (.code c.toNat :: read), done) := by
  have hlt : c.toNat < 32 := h
  have hfirst := digitValue?_hexDigit (c.toNat / 16) (by omega)
  have hsecond := digitValue?_hexDigit (c.toNat % 16) (by omega)
  have hstart : ['\\', 'u', '0', '0'].foldlM scanChar (.text read, done) =
      .ok (.hex read 2 0, done) := rfl
  have hcode : (0 * 16 + c.toNat / 16) * 16 + c.toNat % 16 = c.toNat := by omega
  change (['\\', 'u', '0', '0'] ++ [hexDigit _, hexDigit _]).foldlM scanChar _ = _
  rw [List.foldlM_append, hstart, ok_bind, List.foldlM_cons, scanChar_hex hfirst, ok_bind,
    if_neg (by omega), List.foldlM_cons, scanChar_hex hsecond, ok_bind, if_pos (by omega), hcode]
  rfl

theorem scan_charLiteral (c : Char) (read : List TextUnit) :
    (charLiteral c).foldlM scanChar (.text read, done) = .ok (.text (unitOf c :: read), done) := by
  unfold charLiteral unitOf
  cases hshort : shortEscape c with
  | some e => exact scan_shortEscape hshort read
  | none =>
    by_cases hc : c < ' '
    · rw [if_pos hc, if_pos ⟨rfl, hc⟩]
      exact scan_code hc read
    · have hquote : c ≠ '"' := by
        rintro rfl
        cases hshort
      have hback : c ≠ '\\' := by
        rintro rfl
        cases hshort
      rw [if_neg hc, if_neg fun h => hc h.2, List.foldlM_cons, scanChar, if_neg hquote,
        if_neg hback, if_neg hc]
      rfl

theorem scan_charLiterals (cs : List Char) (read : List TextUnit) :
    (cs.flatMap charLiteral).foldlM scanChar (.text read, done) =
      .ok (.text ((cs.map unitOf).reverse ++ read), done) := by
  induction cs generalizing read with
  | nil => rfl
  | cons c cs ih =>
    rw [List.flatMap_cons, List.foldlM_append, scan_charLiteral, ok_bind, ih, List.map_cons,
      List.reverse_cons, List.append_assoc]
    rfl

theorem joinUnits_unitOf (cs : List Char) : joinUnits (cs.map unitOf) = some cs := by
  induction cs with
  | nil => rfl
  | cons c cs ih =>
    rw [List.map_cons, unitOf]
    split
    · next h =>
      have hlt : c.toNat < 32 := h.2
      unfold joinUnits
      rw [if_neg (by omega), if_neg (by omega), ih, Char.ofNat_toNat]
      rfl
    · rw [joinUnits, ih]
      rfl

theorem scans_text (k : JsonText) : Scans (textLiteral k) [.text k (isCoded k)] := by
  intro done
  refine ⟨_, ?_, .between⟩
  cases k with
  | none => rfl
  | some s =>
    have hquote : scanChar (.between, done) '"' = .ok (.text [], done) := rfl
    rw [textLiteral, List.cons_append, List.foldlM_cons, hquote, ok_bind, List.foldlM_append,
      scan_charLiterals, ok_bind, List.append_nil, List.foldlM_cons, scanChar, if_pos rfl,
      List.reverse_reverse, joinUnits_unitOf, Option.map_some, String.ofList_toList]
    simp [isCoded]
    rfl

end Texts

end PointsTo.Json
