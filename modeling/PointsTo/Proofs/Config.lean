import PointsTo.Config.Document
import PointsTo.Proofs.Json.Variant
import PointsTo.Proofs.Yaml.Number
import PointsTo.Proofs.Yaml.Parse

/-! Settings reload from the documents that are written for them. -/
namespace PointsTo

open Yaml

section Reading

variable {entries : List (String × Yaml)} {names : List String} {s : String} {n bound : Nat}

theorem Yaml.fields_mapping (hnames : entries.map Prod.fst = names) (hnodup : names.Nodup) :
    (mapping entries).fields names = .ok fun name => entries.lookup name := by
  have hknown : entries.find? (fun e => e.1 ∉ names) = none := by
    refine List.find?_eq_none.2 fun e he => ?_
    have hmem : e.1 ∈ names := hnames ▸ List.mem_map_of_mem he
    simp [hmem]
  have honce : names.find? (fun name => 1 < entries.countP fun e => e.1 = name) = none :=
    List.find?_eq_none.2 fun name _ => by
      simpa using Json.countP_key_le_one (hnames ▸ hnodup) name
  simp only [fields, hknown, honce]
  rfl

theorem readNat_written (h : n < bound) : (written (ofNat n)).readNat bound = .ok n := by
  change readNat bound (scalar ⟨toString n, true⟩) = .ok n
  rw [readNat, natOfText?_toString]
  exact if_pos h

theorem natOfText?_of_isNullText (h : isNullText s = true) : natOfText? s = none := by
  have hnames : ∀ name ∈ ["", "~", "null", "Null", "NULL"], natOfText? name = none := by decide
  exact hnames s (of_decide_eq_true h)

theorem readOption_number {o : Option Nat} (h : ∀ n ∈ o, n < bound) :
    readOption (readNat bound) (written (ofOption ofNat o)) = .ok o := by
  cases o with
  | none => rfl
  | some n =>
    have hnull : ¬ isNullText (toString n) = true := fun hnull => by
      have hnone := natOfText?_of_isNullText hnull
      rw [natOfText?_toString] at hnone
      cases hnone
    have hread : readOption (readNat bound) (written (ofNat n)) = some <$>
        readNat bound (written (ofNat n)) := if_neg fun h => hnull h.2
    refine hread.trans ?_
    rw [readNat_written (h n rfl)]
    rfl

theorem readOption_text {o : Option String} (h : ∀ s ∈ o, IsLine s.toList) :
    readOption readText (written (ofOption text o)) = .ok o := by
  cases o with
  | none => rfl
  | some s =>
    have hnull : ¬ ((writtenScalar ⟨s, false⟩).isPlain = true ∧ isNullText s = true) := by
      rintro ⟨hplain, hnull⟩
      rcases style_of_line (h s rfl) with hstyle | ⟨-, -, hspecial⟩
      · simp [writtenScalar, hstyle] at hplain
      · simp [isSpecialText, hnull] at hspecial
    exact if_neg hnull

theorem readText_written (s : String) : readText (written (text s)) = .ok s := rfl

theorem readBool_written (b : Bool) : readBool (written (ofBool b)) = .ok b := by
  cases b <;> rfl

theorem Output.ofYaml_written (o : Output) : ofYaml (written o.toYaml) = .ok o := by
  have hformat : readName OutputFormat.names (written (text o.format.name)) = .ok o.format := by
    cases o.format <;> rfl
  have hfields : (written o.toYaml).fields ["path", "format"] = .ok fun name =>
      (writtenEntries [("path", text o.path), ("format", text o.format.name)]).lookup name :=
    fields_mapping rfl (by decide)
  simp only [ofYaml, hfields, writtenEntries, List.lookup_cons, BEq.rfl, String.reduceBEq, orElse,
    ok_bind, readText_written, hformat]
  rfl

end Reading

/-- Strings are printable text on one line, and numbers have 64 bits. -/
structure Config.OneLine (c : Config) : Prop where
  depth : c.maxInlineDepth < capacity 64
  iterations : ∀ n ∈ c.maxIterations, n < capacity 64
  owner : IsLine c.hooks.owner.toList
  alloc : IsLine c.hooks.alloc.toList
  test : IsLine c.hooks.test.toList
  entry : ∀ s ∈ c.entry, IsLine s.toList
  path : IsLine c.output.path.toList

instance : DecidablePred Config.OneLine := fun _ =>
  decidable_of_iff (_ ∧ _ ∧ _ ∧ _ ∧ _ ∧ _ ∧ _)
    ⟨fun ⟨hd, hi, ho, ha, ht, he, hp⟩ => ⟨hd, hi, ho, ha, ht, he, hp⟩,
      fun ⟨hd, hi, ho, ha, ht, he, hp⟩ => ⟨hd, hi, ho, ha, ht, he, hp⟩⟩

section Documents

variable {c : Config}

theorem Config.ofYaml_written (h : c.OneLine) : ofYaml (written c.toYaml) = .ok c := by
  have hpolicy : readName SeedPolicy.names (written (text c.seedPolicy.name)) =
      .ok c.seedPolicy := by
    cases c.seedPolicy <;> rfl
  have hfields : (written c.toYaml).fields fieldNames = .ok fun name =>
      (writtenEntries [("max_inline_depth", ofNat c.maxInlineDepth),
        ("max_iterations", ofOption ofNat c.maxIterations),
        ("field_copropagation", ofBool c.fieldCopropagation),
        ("seed_policy", text c.seedPolicy.name), ("intrinsic_class", text c.hooks.owner),
        ("alloc_hook", text c.hooks.alloc), ("test_hook", text c.hooks.test),
        ("entry", ofOption text c.entry), ("output", c.output.toYaml)]).lookup name :=
    fields_mapping rfl (by decide)
  simp only [ofYaml, hfields, writtenEntries, List.lookup_cons, BEq.rfl, String.reduceBEq, orElse,
    ok_bind, readNat_written h.depth, readOption_number h.iterations, readBool_written, hpolicy,
    readText_written, readOption_text h.entry, Output.ofYaml_written]
  rfl

theorem fitsEntries {es : List (String × Yaml)} (names : List String)
    (hnames : es.map Prod.fst = names)
    (hkeys : ∀ k ∈ names, IsLine k.toList ∧ 2 * k.length + 2 ≤ maxKeySize)
    (hvalues : es.Forall fun e => Fits e.2) : FitsEntries es := by
  subst hnames
  rw [List.forall_iff_forall_mem] at hvalues
  induction es with
  | nil => trivial
  | cons e es ih =>
    obtain ⟨⟨hline, hsize⟩, hkeys⟩ := List.forall_mem_cons.1 hkeys
    obtain ⟨hvalue, hvalues⟩ := List.forall_mem_cons.1 hvalues
    have hkey : FitsKey e.1 :=
      ⟨hline, fun indent => le_trans (length_of_writes (writes_stringChars indent hline)) hsize⟩
    exact ⟨hkey, hvalue, ih hvalues hkeys⟩

theorem fits_text {s : String} (h : IsLine s.toList) : Fits (text s) := h

theorem fits_number (n : Nat) : Fits (ofNat n) := isPlain_toString n

theorem fits_bool (b : Bool) : Fits (ofBool b) := by
  cases b <;> exact ⟨by decide, rfl, rfl, by decide, by decide⟩

theorem fits_option {α : Type} {write : α → Yaml} {o : Option α} (h : ∀ a ∈ o, Fits (write a)) :
    Fits (ofOption write o) := by
  cases o with
  | none => exact ⟨by decide, rfl, rfl, by decide, by decide⟩
  | some a => exact h a rfl

theorem Output.fits_toYaml {o : Output} (h : IsLine o.path.toList) : Fits o.toYaml := by
  have hformat : IsLine o.format.name.toList := by
    cases o.format <;> decide
  exact fitsEntries ["path", "format"] rfl (by decide) ⟨fits_text h, fits_text hformat⟩

theorem Config.fits_toYaml (h : c.OneLine) : Fits c.toYaml := by
  have hpolicy : IsLine c.seedPolicy.name.toList := by
    cases c.seedPolicy <;> decide
  exact fitsEntries fieldNames rfl (by decide) ⟨fits_number _, fits_option fun n _ => fits_number n,
    fits_bool _, fits_text hpolicy, fits_text h.owner, fits_text h.alloc, fits_text h.test,
    fits_option fun s hs => fits_text (h.entry s hs), Output.fits_toYaml h.path⟩

theorem Config.readDocument_toDocument (h : c.OneLine) :
    readDocument c.toDocument = .ok (documentVersion, c) := by
  have hfits : FitsEntries [("version", ofNat documentVersion), ("pta", c.toYaml)] :=
    fitsEntries ["version", "pta"] rfl (by decide) ⟨fits_number _, fits_toYaml h⟩
  have hfields : (mapping (writtenEntries
      [("version", ofNat documentVersion), ("pta", c.toYaml)])).fields ["version", "pta"] =
        .ok fun name => (writtenEntries
          [("version", ofNat documentVersion), ("pta", c.toYaml)]).lookup name :=
    fields_mapping rfl (by decide)
  have hversion : readNat (capacity 32) (written (ofNat documentVersion)) = .ok documentVersion :=
    readNat_written (by decide)
  rw [readDocument, toDocument, parse_render hfits, ok_bind, hfields]
  simp only [writtenEntries, List.lookup_cons, BEq.rfl, String.reduceBEq, orElse, ok_bind, hversion,
    ofYaml_written h]
  rfl

/-- Settings that are written come back, or are refused for what is wrong with them. -/
theorem Config.document_reloads (h : c.OneLine) : ofDocument c.toDocument =
    match c.validate with
    | .error e => .error (.invalid e)
    | .ok () => .ok c := by
  rw [ofDocument, readDocument_toDocument h]
  rfl

def lookalikes : Config where
  maxInlineDepth := 0
  maxIterations := none
  fieldCopropagation := false
  seedPolicy := .atAllocation
  hooks := ⟨"null", "- a: b # c", "0x10"⟩
  entry := some "1.5"
  output := ⟨"it's true", .json⟩

/-- With an entry that is no name of a method they are refused. -/
theorem lookalikes_reload : lookalikes.OneLine ∧
    Config.ofDocument lookalikes.toDocument = .ok lookalikes ∧
      Config.ofDocument { lookalikes with entry := some "null" }.toDocument =
        .error (.invalid (.unqualifiedEntry "null")) :=
  have h : lookalikes.OneLine := by decide
  have h' : { lookalikes with entry := some "null" }.OneLine := by decide
  ⟨h, Config.document_reloads h, Config.document_reloads h'⟩

end Documents

end PointsTo
