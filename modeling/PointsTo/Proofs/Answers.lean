import Mathlib
import PointsTo.Host.Save
import PointsTo.Proofs.Collected
import PointsTo.Proofs.Directory
import PointsTo.Proofs.Json.Parse
import PointsTo.Proofs.Json.Variant

/-! Written answers are read back, from the text with one line for each test point as well as from
JSON, so neither form loses anything. -/
namespace PointsTo

section Integers

variable {c : Char} {n : Int}

def readInteger : List Char → Option Int
  | '-' :: cs => (readDigits 10 cs).map fun n => -(n : Int)
  | cs => (readDigits 10 cs).map fun n => (n : Int)

theorem toList_toString (n : Int) : (toString n).toList = Json.intLiteral n := by
  cases n with
  | ofNat n => exact String.toList_ofList
  | negSucc n =>
    have hsign : toString (Int.negSucc n) = "-" ++ toString (n + 1) := rfl
    have hdigits : (toString (n + 1)).toList = Nat.toDigits 10 (n + 1) := String.toList_ofList
    rw [hsign, String.toList_append, hdigits]
    rfl

theorem readInteger_intLiteral (n : Int) : readInteger (Json.intLiteral n) = some n := by
  cases n with
  | negSucc n =>
    rw [Json.intLiteral, readInteger, readDigits_toDigits]
    rfl
  | ofNat n =>
    have hread := readDigits_toDigits n
    obtain ⟨c, cs, hdigits, hc⟩ := toDigits_eq_cons n
    rw [hdigits] at hread
    rw [Json.intLiteral, hdigits, readInteger, hread]
    · rfl
    · exact fun ds heq => ne_of_isDigit hc rfl (List.cons.inj heq).1

theorem not_mem_intLiteral (h : Json.isNumberChar c = false) : c ∉ Json.intLiteral n := by
  intro hc
  rw [Json.isNumberChar_intLiteral n c hc] at h
  cases h

end Integers

namespace Answers

variable {a b : Answers}

section Lines

/-- Reads a line: a test point with a colon, and labels behind spaces. -/
def readLine (line : List Char) : Option (Int × List Int) :=
  match line.splitOn ' ' with
  | [] => none
  | first :: rest =>
    if first.getLast? = some ':' then do
      return (← readInteger first.dropLast, ← rest.mapM readInteger)
    else none

def readLines (text : String) : Option (List (Int × List Int)) :=
  let lines := text.toList.splitOn '\n'
  if lines.getLast? = some [] then lines.dropLast.mapM readLine else none

def lineOf (e : Int × OrderedSet Int) : List Char :=
  [' '].intercalate ((Json.intLiteral e.1 ++ [':']) :: e.2.toList.map Json.intLiteral)

theorem not_mem_words {c : Char} (hc : Json.isNumberChar c = false) (hcolon : c ≠ ':')
    (e : Int × OrderedSet Int) :
    ∀ w ∈ (Json.intLiteral e.1 ++ [':']) :: e.2.toList.map Json.intLiteral, c ∉ w := by
  intro w hw
  rcases List.mem_cons.1 hw with rfl | hw
  · simp [not_mem_intLiteral hc, hcolon]
  · obtain ⟨l, -, rfl⟩ := List.mem_map.1 hw
    exact not_mem_intLiteral hc

theorem mapM_map_some {α β : Type} {f : α → β} {g : β → Option α} (h : ∀ x, g (f x) = some x)
    (xs : List α) : (xs.map f).mapM g = some xs := by
  induction xs with
  | nil => rfl
  | cons x xs ih => simp [h, ih]

theorem readLine_lineOf (e : Int × OrderedSet Int) :
    readLine (lineOf e) = some (e.1, e.2.toList) := by
  have hwords : (lineOf e).splitOn ' ' =
      (Json.intLiteral e.1 ++ [':']) :: e.2.toList.map Json.intLiteral :=
    List.splitOn_intercalate ' ' (not_mem_words rfl (by decide) e) (List.cons_ne_nil _ _)
  have hlabels := mapM_map_some readInteger_intLiteral e.2.toList
  simp only [readLine, hwords, List.getLast?_concat, if_true, List.dropLast_concat,
    readInteger_intLiteral, hlabels]
  rfl

theorem intercalate_cons (c : Char) (w : List Char) (ws : List (List Char)) :
    [c].intercalate (w :: ws) = w ++ ws.flatMap (c :: ·) := by
  induction ws generalizing w with
  | nil => simp
  | cons v ws ih => rw [List.intercalate_cons_cons, ih]; simp

/-- Words that each have the mark behind them are words with the mark between them. -/
theorem flatMap_concat (c : Char) (ws : List (List Char)) :
    ws.flatMap (· ++ [c]) = [c].intercalate (ws ++ [[]]) := by
  induction ws with
  | nil => rfl
  | cons w ws ih =>
    rw [List.flatMap_cons, ih, List.cons_append, intercalate_cons]
    cases ws with
    | nil => simp
    | cons v ws => rw [List.cons_append, intercalate_cons]; simp

theorem toList_toText (a : Answers) :
    a.toText.toList = (a.entries.map lineOf).flatMap (· ++ ['\n']) := by
  have hentry : ∀ e : Int × OrderedSet Int,
      (s!"{e.1}:" ++ String.join (e.2.toList.map fun l => s!" {l}") ++ "\n").toList =
        lineOf e ++ ['\n'] := by
    intro e
    have hnumber : ∀ n : Int, n.repr.toList = Json.intLiteral n := toList_toString
    have hcolon : (toString ":").toList = [':'] := rfl
    have hblank : (toString " ").toList = [' '] := rfl
    rw [lineOf, intercalate_cons]
    simp [String.toList_join, hnumber, hcolon, hblank, List.flatMap_map]
  rw [toText, String.toList_join, List.flatMap_map, List.flatMap_map]
  exact List.flatMap_congr fun e _ => hentry e

theorem newline_not_mem_lineOf (e : Int × OrderedSet Int) : '\n' ∉ lineOf e := by
  rw [lineOf, intercalate_cons]
  have hwords := not_mem_words (c := '\n') rfl (by decide) e
  obtain ⟨hfirst, hrest⟩ := List.forall_mem_cons.1 hwords
  simp only [List.mem_append, List.mem_flatMap, List.mem_cons, not_or, not_exists, not_and]
  exact ⟨by simpa using hfirst, fun w hw => ⟨by decide, hrest w hw⟩⟩

theorem readLines_toText (a : Answers) :
    readLines a.toText = some (a.entries.map fun e => (e.1, e.2.toList)) := by
  have hlines : a.toText.toList.splitOn '\n' = a.entries.map lineOf ++ [[]] := by
    rw [toList_toText, flatMap_concat]
    refine List.splitOn_intercalate '\n' ?_ (by simp)
    intro line hline
    rcases List.mem_append.1 hline with hline | hline
    · obtain ⟨e, -, rfl⟩ := List.mem_map.1 hline
      exact newline_not_mem_lineOf e
    · rw [List.mem_singleton.1 hline]
      exact List.not_mem_nil
  simp only [readLines, hlines, List.getLast?_concat, if_true, List.dropLast_concat]
  induction a.entries with
  | nil => rfl
  | cons e es ih => simp [readLine_lineOf, ih]

end Lines

section Objects

open Json

variable {p : Token → Prop} {tss : List (List Token)} {es : List (Int × OrderedSet Int)} {id : Int}
  {ls : OrderedSet Int} {acc : Answers}

def InRange (a : Answers) : Prop :=
  ∀ e ∈ a.entries, (-capacity 63 ≤ e.1 ∧ e.1 < capacity 63) ∧
    ∀ l ∈ e.2.toList, -capacity 63 ≤ l ∧ l < capacity 63

instance (a : Answers) : Decidable a.InRange :=
  inferInstanceAs (Decidable (∀ e ∈ a.entries, _ ∧ ∀ l ∈ e.2.toList, _))

theorem forall_mem_separated (hcomma : p .comma) (h : ∀ ts ∈ tss, ∀ t ∈ ts, p t) :
    ∀ t ∈ separated tss, p t := by
  cases tss with
  | nil => exact fun t ht => absurd ht List.not_mem_nil
  | cons ts tss =>
    obtain ⟨hts, htss⟩ := List.forall_mem_cons.1 h
    rw [separated_cons]
    refine List.forall_mem_append.2 ⟨hts, fun t ht => ?_⟩
    obtain ⟨ts', hts', ht⟩ := List.mem_flatMap.1 ht
    rcases List.mem_cons.1 ht with rfl | ht
    · exact hcomma
    · exact htss ts' hts' t ht

theorem isCoded_toString (id : Int) : isCoded (some (toString id)) = false := by
  rw [isCoded, Option.elim_some, toList_toString, List.any_eq_false]
  intro c hc
  have hnumber := isNumberChar_intLiteral id c hc
  have hblank : ¬ c < ' ' := by
    intro hlt
    have hlow : c.toNat < 32 := hlt
    simp only [isNumberChar, Bool.or_eq_true, decide_eq_true_eq, Char.isDigit_iff_toNat] at hnumber
    rcases hnumber with ((((⟨hdigit, -⟩ | rfl) | rfl) | rfl) | rfl) | rfl
    · exact absurd (Nat.le_trans hdigit (Nat.le_of_lt hlow)) (by decide)
    all_goals exact absurd hlow (by decide)
  rw [unitOf, if_neg fun h => hblank h.2]
  exact Bool.false_ne_true

def IsUncoded (t : Token) : Prop := ∀ s, t ≠ .text s true

theorem itemTokens_eq_map (items : List Json) : itemTokens items = items.map tokens := by
  induction items with
  | nil => rfl
  | cons j items ih => rw [itemTokens, ih, List.map_cons]

theorem memberTokens_eq_map (members : List (JsonText × Json)) : memberTokens members =
    members.map fun m => .text m.1 (isCoded m.1) :: .colon :: tokens m.2 := by
  induction members with
  | nil => rfl
  | cons m members ih => rw [memberTokens, ih, List.map_cons]

theorem tokens_ints_uncoded (ns : List Int) : ∀ t ∈ tokens (ofList int ns), IsUncoded t := by
  have hitems : ∀ ts ∈ itemTokens (ns.map int), ∀ t ∈ ts, IsUncoded t := by
    rw [itemTokens_eq_map, List.map_map]
    intro ts hts t ht
    obtain ⟨n, -, rfl⟩ := List.mem_map.1 hts
    cases List.mem_singleton.1 ht
    exact fun s => nofun
  refine List.forall_mem_append.2 ⟨List.forall_mem_cons.2 ⟨fun s => nofun, ?_⟩,
    List.forall_mem_singleton.2 fun s => nofun⟩
  exact forall_mem_separated (fun s => nofun) hitems

theorem tokens_toJson_uncoded (a : Answers) : ∀ t ∈ tokens a.toJson, IsUncoded t := by
  have hmembers : ∀ ts ∈ memberTokens ((a.entries.map fun e =>
      (toString e.1, ofList int e.2.toList)).map fun m => (some m.1, m.2)),
      ∀ t ∈ ts, IsUncoded t := by
    rw [memberTokens_eq_map, List.map_map, List.map_map]
    intro ts hts
    obtain ⟨e, -, rfl⟩ := List.mem_map.1 hts
    refine List.forall_mem_cons.2 ⟨?_, List.forall_mem_cons.2 ⟨fun s => nofun, ?_⟩⟩
    · intro s heq
      have hcoded := (Token.text.inj heq).2
      rw [isCoded_toString] at hcoded
      cases hcoded
    · exact tokens_ints_uncoded e.2.toList
  refine List.forall_mem_append.2 ⟨List.forall_mem_cons.2 ⟨fun s => nofun, ?_⟩,
    List.forall_mem_singleton.2 fun s => nofun⟩
  exact forall_mem_separated (fun s => nofun) hmembers

theorem readKey_some (s : String) : readKey (some s) =
    match readInteger s.toList with
    | some n => if toString n = s then readInt64 (int n) else .error (.expected "an integer key")
    | _ => .error (.expected "an integer key") := by
  unfold readKey
  change (match readInteger s.toList with
    | some n => _
    | _ => _) = _
  cases readInteger s.toList with
  | none => rfl
  | some n =>
    by_cases h : toString n = s
    · exact (if_neg (not_not.2 h)).trans (if_pos h).symm
    · exact (if_pos h).trans (if_neg h).symm

theorem readKey_toString (h : -capacity 63 ≤ id ∧ id < capacity 63) :
    readKey (some (toString id)) = .ok id := by
  rw [readKey_some, toList_toString, readInteger_intLiteral]
  exact (if_pos rfl).trans (if_pos h)

theorem insertEntry_of_lt (h : ∀ e ∈ es, e.1 < id) : insertEntry id ls es = es ++ [(id, ls)] := by
  induction es with
  | nil => rfl
  | cons e es ih =>
    obtain ⟨he, hes⟩ := List.forall_mem_cons.1 h
    rw [insertEntry, if_neg (by omega), if_neg (by omega), ih hes, List.cons_append]

theorem foldlM_insert {f : Answers → Int × OrderedSet Int → Except JsonError Answers}
    (hf : ∀ e ∈ es, ∀ acc, f acc e = .ok (acc.insert e.1 e.2))
    (hacc : acc.entries ++ es = a.entries) : es.foldlM f acc = .ok a := by
  induction es generalizing acc with
  | nil =>
    rw [List.append_nil] at hacc
    exact congrArg Except.ok (eq_of_entries hacc)
  | cons e es ih =>
    obtain ⟨he, hes⟩ := List.forall_mem_cons.1 hf
    have hlast : ∀ x ∈ acc.entries, x.1 < e.1 := by
      have hasc := a.ascending
      rw [← hacc] at hasc
      exact fun x hx => (List.pairwise_append.1 hasc).2.2 x hx e List.mem_cons_self
    rw [List.foldlM_cons, he, ok_bind]
    apply ih hes
    have hentries : (acc.insert e.1 e.2).entries = acc.entries ++ [e] := insertEntry_of_lt hlast
    rw [hentries, List.append_assoc]
    exact hacc

theorem ofJson_toJson (h : a.InRange) : ofJson a.toJson = .ok a := by
  have hread : ∀ e ∈ a.entries, ∀ acc : Answers, (do
      return acc.insert (← readKey (some (toString e.1)))
        (.ofList (← readList readInt64 (ofList int e.2.toList)))) = .ok (acc.insert e.1 e.2) := by
    intro e he acc
    obtain ⟨hid, hlabels⟩ := h e he
    have hlist : Reads (fun _ => none) (readList readInt64) (ofList int e.2.toList) e.2.toList :=
      Reads.list fun l hl => reads_int64 (hlabels l hl).1 (hlabels l hl).2
    rw [readKey_toString hid, ok_bind, hlist _ (.refl _), ok_bind, OrderedSet.ofList_toList]
    rfl
  rw [toJson, record, ofJson, List.map_map, List.foldlM_map]
  exact foldlM_insert hread rfl

theorem parse_contents (h : a.InRange) : parse (a.contents .json) = .ok a := by
  have htokens : tokenize (a.contents .json).toList = .ok (tokens a.toJson) := by
    rw [contents, renderPretty, String.toList_ofList, (scans_pretty 0 a.toJson).tokenize]
  have hread : (ofTokens (tokens a.toJson) >>= ofJson) = .ok a := by
    rw [ofTokens_tokens, ok_bind, ofJson_toJson h]
  rw [parse, htokens, ok_bind]
  refine (if_neg fun hcoded => ?_).trans hread
  obtain ⟨t, ht, hcoded⟩ := List.any_eq_true.1 hcoded
  split at hcoded
  · exact tokens_toJson_uncoded a _ ht _ rfl
  · cases hcoded

end Objects

section Saves

variable {o : Output} {d d' : Directory} {e : Event}

theorem save_of_write (h : d.write o.path (a.contents o.format) = .ok d') :
    (a.save Directory.host o).run d = (.ok (.resultsWritten a.size o.path), d') := by
  simp only [save, Directory.host, h, StateT.run_bind, StateT.run_get, pure_bind]
  rfl

/-- A save that succeeds leaves the written form under the path of the output. -/
theorem read_of_save (h : (a.save Directory.host o).run d = (.ok e, d')) :
    d'.read o.path = .ok (a.contents o.format) := by
  cases hwrite : d.write o.path (a.contents o.format) with
  | error failure =>
    have hsave : (a.save Directory.host o).run d = (.error ⟨o.path, failure⟩, d) := by
      simp only [save, Directory.host, hwrite, StateT.run_bind, StateT.run_get, pure_bind]
      rfl
    rw [hsave] at h
    cases h
  | ok next =>
    rw [save_of_write hwrite] at h
    cases h
    exact Directory.read_of_write hwrite

end Saves

theorem eq_of_toText (h : b.toText = a.toText) : b = a := by
  have hentries : b.entries.map (fun e => (e.1, e.2.toList)) =
      a.entries.map (fun e => (e.1, e.2.toList)) := by
    have hlines := readLines_toText b
    rw [h, readLines_toText] at hlines
    exact (Option.some.inj hlines).symm
  have hinj : Function.Injective fun e : Int × OrderedSet Int => (e.1, e.2.toList) := by
    intro e f heq
    obtain ⟨hid, hlabels⟩ := Prod.mk.inj heq
    refine Prod.ext hid (OrderedSet.ext fun x => ?_)
    rw [OrderedSet.mem_def, OrderedSet.mem_def, hlabels]
  exact eq_of_entries (List.map_injective_iff.2 hinj hentries)

/-- What is written can be read again, from JSON as well as from lines. The lines ascend in the test
points and each of them in its labels, and no other answers have them. -/
theorem contents_readable (a : Answers) :
    (a.InRange → parse (a.contents .json) = .ok a) ∧
    (∃ lines, readLines (a.contents .text) = some lines ∧
      lines = a.entries.map (fun e => (e.1, e.2.toList)) ∧
      lines.Pairwise (fun x y => x.1 < y.1) ∧ ∀ line ∈ lines, line.2.Pairwise (· < ·)) ∧
    (∀ b : Answers, b.contents .text = a.contents .text → b = a) ∧
    ∀ (o : Output) (d d' : Directory) (e : Event),
      (a.save Directory.host o).run d = (.ok e, d') →
        d'.read o.path = .ok (a.contents o.format) := by
  refine ⟨parse_contents, ⟨_, readLines_toText a, rfl, List.pairwise_map.2 a.ascending, ?_⟩,
    fun b => eq_of_toText, fun o d d' e => read_of_save⟩
  intro line hline
  obtain ⟨e, -, rfl⟩ := List.mem_map.1 hline
  exact e.2.ascending.imp Int.compare_eq_lt.1

def extremes : Answers :=
  ((empty.insert (-2 ^ 63) ∅).insert 0 (.ofList [7, -5])).insert (2 ^ 63 - 1)
    (.ofList [2 ^ 63 - 1, -2 ^ 63])

theorem write_out (contents : String) : (∅ : Directory).write "out" contents =
    .ok (Directory.put ∅ ["out"] contents) := by
  cbv

theorem extremes_readable : extremes.InRange ∧ parse (extremes.contents .json) = .ok extremes ∧
    ∃ d, (extremes.save Directory.host ⟨"out", .json⟩).run ∅ =
        (.ok (.resultsWritten 3 "out"), d) ∧
      d.read "out" = .ok (extremes.contents .json) := by
  have hrange : extremes.InRange := by decide
  have hsave := save_of_write (a := extremes) (o := ⟨"out", .json⟩) (write_out _)
  obtain ⟨hparse, -, -, hread⟩ := contents_readable extremes
  exact ⟨hrange, hparse hrange, _, hsave, hread _ _ _ _ hsave⟩

end Answers

end PointsTo
