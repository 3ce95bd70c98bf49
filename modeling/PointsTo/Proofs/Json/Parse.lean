import PointsTo.Json.Parse
import PointsTo.Proofs.Json.Scan

/-! Every value is read back from the text that is written for it, compact or indented. -/
namespace PointsTo.Json

def separated : List (List Token) → List Token
  | [] => []
  | [x] => x
  | x :: xs => x ++ .comma :: separated xs

mutual

def tokens : Json → List Token
  | str k => [.text k (isCoded k)]
  | arr items => .openArr :: separated (itemTokens items) ++ [.closeArr]
  | obj members => .openObj :: separated (memberTokens members) ++ [.closeObj]
  | j => [.scalar j]

def itemTokens : List Json → List (List Token)
  | [] => []
  | x :: xs => tokens x :: itemTokens xs

def memberTokens : List (JsonText × Json) → List (List Token)
  | [] => []
  | (k, v) :: ms => (.text k (isCoded k) :: .colon :: tokens v) :: memberTokens ms

end

theorem separated_cons (x : List Token) (xs : List (List Token)) :
    separated (x :: xs) = x ++ xs.flatMap (.comma :: ·) := by
  induction xs generalizing x with
  | nil => exact (List.append_nil x).symm
  | cons y ys ih =>
    have hcons : separated (x :: y :: ys) = x ++ .comma :: separated (y :: ys) := rfl
    rw [hcons, ih, List.flatMap_cons, List.cons_append]

section Scanning

variable {cs gap : List Char} {css : List (List Char)} {ts : List Token} {tss : List (List Token)}
  {c : Char}

theorem Scans.blank (hc : isBlank c = true) (h : Scans cs ts) : Scans (c :: cs) ts := by
  intro done
  obtain ⟨σ, hσ, hsettled⟩ := h done
  refine ⟨σ, ?_, hsettled⟩
  rw [List.foldlM_cons, scanChar, startToken, if_pos hc]
  exact hσ

theorem Scans.blanks (hgap : ∀ c ∈ gap, isBlank c = true) (h : Scans cs ts) :
    Scans (gap ++ cs) ts := by
  induction gap with
  | nil => exact h
  | cons c gap ih =>
    obtain ⟨hc, hgap⟩ := List.forall_mem_cons.1 hgap
    exact (ih hgap).blank hc

theorem comma_isDelimiter : IsDelimiter ',' := ⟨rfl, rfl⟩

theorem scans_joined (gap : List Char) (hgap : ∀ c ∈ gap, isBlank c = true)
    (h : List.Forall₂ Scans css tss) (hc : IsDelimiter c) (hrest : Scans (c :: cs) ts) :
    Scans (joinWith (',' :: gap) css ++ c :: cs) (separated tss ++ ts) := by
  induction h with
  | nil => exact hrest
  | @cons x xts xs xss hx htail ih =>
    cases htail with
    | nil => exact hx.append hc hrest
    | cons hy htail =>
      have hafter := (ih.blanks hgap).token (c := ',') (t := .comma) fun _ => rfl
      have hall := hx.append comma_isDelimiter hafter
      simpa only [joinWith, separated, List.append_assoc, List.cons_append] using hall

end Scanning

section Writing

variable {css : List (List Char)} {tss : List (List Token)} {cs : List Char} {ts : List Token}

theorem closeArr_scans : Scans [']'] [.closeArr] := scans_nil.token fun _ => rfl

theorem closeObj_scans : Scans ['\x7d'] [.closeObj] := scans_nil.token fun _ => rfl

theorem Scans.member (k : JsonText) (gap : List Char) (hgap : ∀ c ∈ gap, isBlank c = true)
    (h : Scans cs ts) :
    Scans (textLiteral k ++ ':' :: (gap ++ cs)) (.text k (isCoded k) :: .colon :: ts) :=
  (scans_text k).append ⟨rfl, rfl⟩ ((h.blanks hgap).token fun _ => rfl)

theorem isBlank_lineBreak (level : Nat) : ∀ c ∈ lineBreak level, isBlank c = true := by
  refine List.forall_mem_cons.2 ⟨rfl, fun c hc => ?_⟩
  rw [List.eq_of_mem_replicate hc]
  rfl

theorem scans_indented {opening closing : Char} {first last : Token}
    (hopening : ∀ done, startToken done opening = .ok (.between, first :: done))
    (hlast : Scans [closing] [last]) (level : Nat)
    (h : List.Forall₂ Scans css tss) :
    Scans (indented opening closing level css) (first :: separated tss ++ [last]) := by
  cases h with
  | nil => exact hlast.token hopening
  | cons hx htail =>
    have hbreak : Scans (lineBreak level ++ [closing]) [last] :=
      hlast.blanks (isBlank_lineBreak level)
    have hitems := scans_joined (lineBreak (level + 1)) (isBlank_lineBreak (level + 1))
      (.cons hx htail) (c := '\n') ⟨rfl, rfl⟩ hbreak
    have hall := (hitems.blanks (isBlank_lineBreak (level + 1))).token hopening
    rw [indented, if_neg (by simp), List.append_assoc, List.append_assoc]
    exact hall

mutual

theorem scans_compact : ∀ j : Json, Scans (compact j) (tokens j)
  | null => scans_null
  | bool b => scans_bool b
  | int n => scans_int n
  | decimal negative n e => scans_decimal negative n e
  | str k => scans_text k
  | arr items => by
    have hitems := scans_joined [] (by simp) (scans_compactItems items) ⟨rfl, rfl⟩
      closeArr_scans
    exact hitems.token fun _ => rfl
  | obj members => by
    have hmembers := scans_joined [] (by simp) (scans_compactMembers members) ⟨rfl, rfl⟩
      closeObj_scans
    exact hmembers.token fun _ => rfl

theorem scans_compactItems : ∀ items : List Json,
    List.Forall₂ Scans (compactItems items) (itemTokens items)
  | [] => .nil
  | x :: xs => .cons (scans_compact x) (scans_compactItems xs)

theorem scans_compactMembers : ∀ members : List (JsonText × Json),
    List.Forall₂ Scans (compactMembers members) (memberTokens members)
  | [] => .nil
  | (k, v) :: ms => .cons ((scans_compact v).member k [] (by simp))
      (scans_compactMembers ms)

end

mutual

theorem scans_pretty (level : Nat) : ∀ j : Json, Scans (pretty level j) (tokens j)
  | null => scans_null
  | bool true => scans_bool true
  | bool false => scans_bool false
  | int n => scans_int n
  | decimal negative n e => scans_decimal negative n e
  | str k => scans_text k
  | arr items =>
    scans_indented (fun _ => rfl) closeArr_scans level
      (scans_prettyItems (level + 1) items)
  | obj members =>
    scans_indented (fun _ => rfl) closeObj_scans level
      (scans_prettyMembers (level + 1) members)

theorem scans_prettyItems (level : Nat) : ∀ items : List Json,
    List.Forall₂ Scans (prettyItems level items) (itemTokens items)
  | [] => .nil
  | x :: xs => .cons (scans_pretty level x) (scans_prettyItems level xs)

theorem scans_prettyMembers (level : Nat) : ∀ members : List (JsonText × Json),
    List.Forall₂ Scans (prettyMembers level members) (memberTokens members)
  | [] => .nil
  | (k, v) :: ms => by
    have hmember := (scans_pretty level v).member k [' '] (List.forall_mem_singleton.2 rfl)
    refine .cons ?_ (scans_prettyMembers level ms)
    rw [List.append_assoc]
    exact hmember

end

end Writing

section Reading

variable {stack : List Frame} {done : List Json}

/-- The first token of a value closes no array. -/
theorem foldlM_itemOrEnd (j : Json) (ts : List Token) :
    (tokens j ++ ts).foldlM ParseState.next (.itemOrEnd stack) =
      (tokens j ++ ts).foldlM ParseState.next (.value (.items [] :: stack)) := by
  cases j <;> rfl

mutual

theorem foldlM_tokens : ∀ (j : Json) (stack : List Frame),
    (tokens j).foldlM ParseState.next (.value stack) = .ok (.ended j stack)
  | null, _ | bool _, _ | int _, _ | decimal .., _ | str _, _ => rfl
  | arr [], _ => rfl
  | arr (x :: xs), stack => by
    have hstart : ParseState.next (.value stack) .openArr = .ok (.itemOrEnd stack) := rfl
    rw [tokens, itemTokens, separated_cons, List.cons_append, List.foldlM_cons, hstart, ok_bind,
      List.append_assoc, foldlM_itemOrEnd, List.foldlM_append, foldlM_tokens x, ok_bind]
    exact foldlM_items xs x [] stack
  | obj [], _ => rfl
  | obj ((k, v) :: ms), stack => by
    have hstart : (Token.openObj :: .text k (isCoded k) :: .colon :: tokens v).foldlM
        ParseState.next (.value stack) =
          (tokens v).foldlM ParseState.next (.value (.members [] k :: stack)) := rfl
    rw [tokens, memberTokens, separated_cons, ← List.cons_append, List.append_assoc,
      List.foldlM_append, hstart, foldlM_tokens v, ok_bind]
    exact foldlM_members ms k v [] stack

theorem foldlM_items : ∀ (xs : List Json) (x : Json) (done : List Json) (stack : List Frame),
    ((itemTokens xs).flatMap (Token.comma :: ·) ++ [Token.closeArr]).foldlM ParseState.next
      (.ended x (.items done :: stack)) = .ok (.ended (.arr (done.reverse ++ x :: xs)) stack)
  | [], x, done, stack => by
    rw [← List.reverse_cons]
    rfl
  | y :: xs, x, done, stack => by
    have hrest := foldlM_items xs y (x :: done) stack
    have hcomma : ParseState.next (.ended x (.items done :: stack)) .comma =
      .ok (.value (.items (x :: done) :: stack)) := rfl
    rw [itemTokens, List.flatMap_cons, List.append_assoc, List.cons_append, List.foldlM_cons,
      hcomma, ok_bind, List.foldlM_append, foldlM_tokens y, ok_bind, hrest, List.reverse_cons,
      List.append_assoc]
    rfl

theorem foldlM_members : ∀ (ms : List (JsonText × Json)) (k : JsonText) (v : Json)
    (done : List (JsonText × Json)) (stack : List Frame),
    ((memberTokens ms).flatMap (Token.comma :: ·) ++ [Token.closeObj]).foldlM ParseState.next
      (.ended v (.members done k :: stack)) =
        .ok (.ended (.obj (done.reverse ++ (k, v) :: ms)) stack)
  | [], k, v, done, stack => by
    rw [← List.reverse_cons]
    rfl
  | (l, w) :: ms, k, v, done, stack => by
    have hrest := foldlM_members ms l w ((k, v) :: done) stack
    have hstart : (Token.comma :: .text l (isCoded l) :: .colon :: tokens w).foldlM
        ParseState.next (.ended v (.members done k :: stack)) =
          (tokens w).foldlM ParseState.next (.value (.members ((k, v) :: done) l :: stack)) := rfl
    rw [memberTokens, List.flatMap_cons, List.append_assoc, List.foldlM_append, hstart,
      foldlM_tokens w, ok_bind, hrest, List.reverse_cons, List.append_assoc]
    rfl

end

theorem ofTokens_tokens (j : Json) : ofTokens (tokens j) = .ok j := by
  rw [ofTokens, foldlM_tokens, ok_bind]
  rfl

/-- What is written compactly is read back. -/
theorem parse_render (j : Json) : parse j.render = .ok j := by
  rw [parse, render, String.toList_ofList, (scans_compact j).tokenize, ok_bind, ofTokens_tokens]

end Reading

end PointsTo.Json
