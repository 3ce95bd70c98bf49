import PointsTo.Program.Json
import PointsTo.Proofs.Json.Parse
import PointsTo.Proofs.Json.Variant

/-! Programs are read back from their JSON texts, with the keys of objects in any order and with
defaults left out. -/
namespace PointsTo

open Json

section Ranges

/-! Slots have 32 bits, jump targets 64, and integers 64 with their sign. -/

def Literal.InRange : Literal → Prop
  | int n => -capacity 63 ≤ n ∧ n < capacity 63
  | null | str _ => True

def Operand.InRange : Operand → Prop
  | var s => s < capacity 32
  | const l => l.InRange

structure Call.InRange (c : Call) : Prop where
  result : ∀ s ∈ c.result, s < capacity 32
  args : ∀ a ∈ c.args, a.InRange
  base : ∀ s ∈ c.base, s < capacity 32

def Stmt.InRange : Stmt → Prop
  | new lhs _ => lhs < capacity 32
  | copy lhs rhs => lhs < capacity 32 ∧ rhs.InRange
  | load lhs base _ => lhs < capacity 32 ∧ ∀ s ∈ base, s < capacity 32
  | store base _ rhs => (∀ s ∈ base, s < capacity 32) ∧ rhs.InRange
  | call c => c.InRange
  | branch targets | goto targets => ∀ t ∈ targets, t < capacity 64
  | ret value => ∀ a ∈ value, a.InRange
  | other _ => True

structure Method.InRange (m : Method) : Prop where
  this : ∀ s ∈ m.this, s < capacity 32
  params : ∀ s ∈ m.params, s < capacity 32
  stmts : ∀ s ∈ m.stmts, s.InRange

def Program.InRange (p : Program) : Prop := ∀ m ∈ p.methods, m.InRange

instance : DecidablePred Literal.InRange
  | .int n => inferInstanceAs (Decidable (-capacity 63 ≤ n ∧ n < capacity 63))
  | .null | .str _ => inferInstanceAs (Decidable True)

instance : DecidablePred Operand.InRange
  | .var s => inferInstanceAs (Decidable (s < capacity 32))
  | .const l => inferInstanceAs (Decidable l.InRange)

instance : DecidablePred Call.InRange := fun _ =>
  decidable_of_iff (_ ∧ _ ∧ _) ⟨fun ⟨hr, ha, hb⟩ => ⟨hr, ha, hb⟩, fun ⟨hr, ha, hb⟩ => ⟨hr, ha, hb⟩⟩

instance : DecidablePred Stmt.InRange
  | .new lhs _ => inferInstanceAs (Decidable (lhs < capacity 32))
  | .copy .. => inferInstanceAs (Decidable (_ ∧ _))
  | .load .. => inferInstanceAs (Decidable (_ ∧ _))
  | .store .. => inferInstanceAs (Decidable (_ ∧ _))
  | .call c => inferInstanceAs (Decidable c.InRange)
  | .branch targets | .goto targets => inferInstanceAs (Decidable (∀ t ∈ targets, t < capacity 64))
  | .ret value => inferInstanceAs (Decidable (∀ a ∈ value, a.InRange))
  | .other _ => inferInstanceAs (Decidable True)

instance : DecidablePred Method.InRange := fun _ =>
  decidable_of_iff (_ ∧ _ ∧ _) ⟨fun ⟨ht, hp, hs⟩ => ⟨ht, hp, hs⟩, fun ⟨ht, hp, hs⟩ => ⟨ht, hp, hs⟩⟩

instance : DecidablePred Program.InRange := fun p =>
  inferInstanceAs (Decidable (∀ m ∈ p.methods, m.InRange))

end Ranges

/-- The default of a key. A key has the same one in every object that may lack it. -/
def defaultOf : String → Option Json
  | "descriptor" | "text" => some (.text "")
  | "is_static" | "is_abstract" => some (.bool false)
  | "args" | "params" | "vars" | "stmts" | "classes" => some (.arr [])
  | "result" | "base" | "value" | "superclass" | "this_var" | "entry" => some .null
  | _ => none

section References

theorem text_default {s : String} (h : some (text "") = some (text s)) : s = "" := by
  cases h
  rfl

theorem bool_default {b : Bool} (h : some (bool false) = some (bool b)) : b = false := by
  cases h
  rfl

theorem list_default {α : Type} {write : α → Json} {xs : List α}
    (h : some (arr []) = some (ofList write xs)) : xs = [] :=
  List.map_eq_nil_iff.1 (arr.inj (Option.some.inj h)).symm

theorem FieldRef.reads (f : FieldRef) : Reads defaultOf ofJson f.toJson f := by
  intro j hj
  obtain ⟨g, hg, howner, hname⟩ := hj.fields ["class", "name"] rfl (by decide)
  rw [ofJson, hg, ok_bind, howner.required rfl (reads_text _), ok_bind,
    hname.required rfl (reads_text _)]
  rfl

theorem MethodRef.reads (m : MethodRef) : Reads defaultOf ofJson m.toJson m := by
  intro j hj
  obtain ⟨g, hg, howner, hname, hdescriptor⟩ :=
    hj.fields ["class", "name", "descriptor"] rfl (by decide)
  rw [ofJson, hg, ok_bind, howner.required rfl (reads_text _), ok_bind,
    hname.required rfl (reads_text _), ok_bind,
    hdescriptor.orElse text_default (reads_text _)]
  rfl

end References

section Operands

theorem Literal.reads {inStmt : Bool} {l : Literal} (h : l.InRange) :
    Reads defaultOf (ofJson inStmt) l.toJson l := by
  intro j hj
  cases l with
  | null =>
    cases hj
    rfl
  | int n =>
    obtain ⟨w, hw, hchoice⟩ := hj.choice rfl
    have hread : payload readInt64 (some w) = .ok n := reads_int64 h.1 h.2 w hw
    simp only [ofJson, hchoice, ok_bind, hread]
    rfl
  | str s =>
    obtain ⟨w, hw, hchoice⟩ := hj.choice rfl
    have hread : payload readText (some w) = .ok s := reads_text s w hw
    simp only [ofJson, hchoice, ok_bind, hread]
    rfl

theorem Operand.reads {inStmt : Bool} {a : Operand} (h : a.InRange) :
    Reads defaultOf (ofJson inStmt) a.toJson a := by
  intro j hj
  cases a with
  | var s =>
    obtain ⟨w, hw, hchoice⟩ := hj.choice rfl
    have hread : payload readNat32 (some w) = .ok s := reads_nat32 h w hw
    simp only [ofJson, hchoice, ok_bind, hread]
    rfl
  | const l =>
    obtain ⟨w, hw, hchoice⟩ := hj.choice rfl
    have hread : payload (Literal.ofJson inStmt) (some w) = .ok l := Literal.reads h w hw
    simp only [ofJson, hchoice, ok_bind, hread]
    rfl

theorem Call.reads {inStmt : Bool} {c : Call} (h : c.InRange) :
    Reads defaultOf (ofJson inStmt) c.toJson c := by
  intro j hj
  obtain ⟨f, hf, hresult, hcallee, hargs, hbase⟩ := hj.fields fieldNames rfl (by decide)
  have hnat : ∀ n : Nat, nat n ≠ null := fun n => nofun
  rw [ofJson, hf, ok_bind, ofFields,
    hresult.optional rfl hnat fun s hs => reads_nat32 (h.result s hs), ok_bind,
    hcallee.required rfl c.callee.reads, ok_bind,
    hargs.orElse list_default (Reads.list fun a ha => Operand.reads (h.args a ha)), ok_bind,
    hbase.optional rfl hnat fun s hs => reads_nat32 (h.base s hs)]
  rfl

end Operands

section Statements

theorem nat_ne_null (n : Nat) : nat n ≠ null := nofun

theorem Operand.toJson_ne_null (a : Operand) : a.toJson ≠ null := by
  cases a <;> exact nofun

theorem Stmt.ofKind_reads {s : Stmt} (h : s.InRange) :
    Reads defaultOf (ofKind s.members.1) (record s.members.2) s := by
  intro j hj
  cases s with
  | new lhs type =>
    obtain ⟨f, hf, hlhs, htype⟩ := hj.fields ["lhs", "class"] rfl (by decide)
    simp only [members, ofKind, hf, ok_bind, hlhs.required rfl (reads_nat32 h),
      htype.required rfl (reads_text type)]
    rfl
  | copy lhs rhs =>
    obtain ⟨f, hf, hlhs, hrhs⟩ := hj.fields ["lhs", "rhs"] rfl (by decide)
    simp only [members, ofKind, hf, ok_bind, hlhs.required rfl (reads_nat32 h.1),
      hrhs.required rfl (Operand.reads h.2)]
    rfl
  | load lhs base field =>
    obtain ⟨f, hf, hlhs, hbase, hfield⟩ := hj.fields ["lhs", "base", "field"] rfl (by decide)
    simp only [members, ofKind, hf, ok_bind, hlhs.required rfl (reads_nat32 h.1),
      hbase.optional rfl nat_ne_null fun s hs => reads_nat32 (h.2 s hs),
      hfield.required rfl field.reads]
    rfl
  | store base field rhs =>
    obtain ⟨f, hf, hbase, hfield, hrhs⟩ := hj.fields ["base", "field", "rhs"] rfl (by decide)
    simp only [members, ofKind, hf, ok_bind,
      hbase.optional rfl nat_ne_null fun s hs => reads_nat32 (h.1 s hs),
      hfield.required rfl field.reads, hrhs.required rfl (Operand.reads h.2)]
    rfl
  | call c =>
    have hc : Call.ofJson true j = .ok c := Call.reads h j hj
    simp only [members, ofKind, hc, ok_bind]
    rfl
  | branch targets | goto targets =>
    obtain ⟨f, hf, htargets⟩ := hj.fields ["targets"] rfl (by decide)
    have hread : Reads defaultOf (readList readNat64) (ofList nat targets) targets :=
      Reads.list fun t ht => reads_nat64 (h t ht)
    simp only [members, ofKind, hf, ok_bind, Field.Holds.required htargets rfl hread]
    rfl
  | ret value =>
    obtain ⟨f, hf, hvalue⟩ := hj.fields ["value"] rfl (by decide)
    have hread : (f "value").optional (Operand.ofJson true) = .ok value :=
      Field.Holds.optional hvalue rfl Operand.toJson_ne_null fun a ha => Operand.reads (h a ha)
    simp only [members, ofKind, hf, ok_bind, hread]
    rfl
  | other text =>
    obtain ⟨f, hf, htext⟩ := hj.fields ["text"] rfl (by decide)
    have hread := Field.Holds.orElse htext text_default (reads_text text)
    simp only [members, ofKind, hf, ok_bind, hread]
    rfl

variable {depth : Nat}

theorem lt_capacity_64 {n : Nat} (h : n < capacity 32) : n < capacity 64 :=
  lt_of_lt_of_le h (by decide)

theorem isReadable_slot {o : Option Slot} (h : ∀ s ∈ o, s < capacity 32) :
    (ofOption nat o).isReadable depth = true :=
  isReadable_ofOption fun s hs => isReadable_nat (lt_capacity_64 (h s hs))

theorem FieldRef.isReadable_toJson (f : FieldRef) : f.toJson.isReadable (depth + 1) = true :=
  isReadable_record ⟨isReadable_text f.owner, isReadable_text f.name⟩

theorem MethodRef.isReadable_toJson (m : MethodRef) : m.toJson.isReadable (depth + 1) = true :=
  isReadable_record
    ⟨isReadable_text m.owner, isReadable_text m.name, isReadable_text m.descriptor⟩

theorem Operand.isReadable_toJson {a : Operand} (h : a.InRange) :
    a.toJson.isReadable (depth + 2) = true := by
  cases a with
  | var s => exact isReadable_record (isReadable_nat (lt_capacity_64 h))
  | const l =>
    cases l with
    | null => exact isReadable_record (isReadable_text "null")
    | str s => exact isReadable_record (isReadable_record (isReadable_text s))
    | int n =>
      have hlow : capacity 63 < capacity 64 := by decide
      have hn : n.natAbs < capacity 64 := by
        have := h.1
        have := h.2
        omega
      exact isReadable_record (isReadable_record (isReadable_int hn))

/-- Statements nest at most four deep. -/
theorem Stmt.isReadable_toJson {s : Stmt} (h : s.InRange) :
    s.toJson.isReadable (depth + 4) = true := by
  cases s with
  | new lhs type =>
    exact isReadable_record
      ⟨isReadable_text _, isReadable_nat (lt_capacity_64 h), isReadable_text type⟩
  | copy lhs rhs =>
    exact isReadable_record ⟨isReadable_text _, isReadable_nat (lt_capacity_64 h.1),
      Operand.isReadable_toJson h.2⟩
  | load lhs base field =>
    exact isReadable_record ⟨isReadable_text _, isReadable_nat (lt_capacity_64 h.1),
      isReadable_slot h.2, field.isReadable_toJson⟩
  | store base field rhs =>
    exact isReadable_record ⟨isReadable_text _, isReadable_slot h.1, field.isReadable_toJson,
      Operand.isReadable_toJson h.2⟩
  | call c =>
    exact isReadable_record ⟨isReadable_text _, isReadable_slot h.result,
      c.callee.isReadable_toJson,
      isReadable_ofList fun a ha => Operand.isReadable_toJson (h.args a ha),
      isReadable_slot h.base⟩
  | branch targets | goto targets =>
    exact isReadable_record
      ⟨isReadable_text _, isReadable_ofList fun t ht => isReadable_nat (h t ht)⟩
  | ret value =>
    exact isReadable_record
      ⟨isReadable_text _, isReadable_ofOption fun a ha => Operand.isReadable_toJson (h a ha)⟩
  | other text => exact isReadable_record ⟨isReadable_text _, isReadable_text text⟩

theorem Stmt.nodup_keys (s : Stmt) :
    ((("kind", text s.members.1) :: s.members.2).map Prod.fst).Nodup := by
  cases s <;> simp [members, Call.members]

theorem Stmt.reads {s : Stmt} (h : s.InRange) : Reads defaultOf (ofJson 4) s.toJson s := by
  intro j hj
  -- All of a statement has to be readable before its kind is known.
  have hwritten : s.toJson.isReadable (119 + 4) = true := Stmt.isReadable_toJson h
  have hreadable : j.isReadable (maxNesting - 4) = true := hj.isReadable hwritten
  obtain ⟨ns, w, rfl, hrepeated, hw, hkind, hrest⟩ := hj.tagged rfl s.nodup_keys
  have hread := reads_text _ w hw
  simp only [ofJson, hreadable, hrepeated, hkind, ok_bind, hread, Stmt.ofKind_reads h _ hrest]
  rfl

end Statements

section Programs

theorem ClassDecl.reads (c : ClassDecl) : Reads defaultOf ofJson c.toJson c := by
  intro j hj
  obtain ⟨f, hf, hname, hsuperclass⟩ := hj.fields ["name", "superclass"] rfl (by decide)
  rw [ofJson, hf, ok_bind, hname.required rfl (reads_text _), ok_bind,
    hsuperclass.optional rfl (fun _ => nofun) fun s _ => reads_text s]
  rfl

theorem Method.reads {m : Method} (h : m.InRange) : Reads defaultOf (ofJson 4) m.toJson m := by
  intro j hj
  obtain ⟨f, hf, howner, hname, hdescriptor, hstatic, habstract, hthis, hparams, hvars, hstmts⟩ :=
    hj.fields fieldNames rfl (by decide)
  rw [ofJson, hf, ok_bind, howner.required rfl (reads_text _), ok_bind,
    hname.required rfl (reads_text _), ok_bind,
    hdescriptor.orElse text_default (reads_text _), ok_bind,
    hstatic.orElse bool_default (reads_bool _), ok_bind,
    habstract.orElse bool_default (reads_bool _), ok_bind,
    hthis.optional rfl nat_ne_null fun s hs => reads_nat32 (h.this s hs), ok_bind,
    hparams.orElse list_default (Reads.list fun s hs => reads_nat32 (h.params s hs)), ok_bind,
    hvars.orElse list_default (Reads.list fun s _ => reads_text s), ok_bind,
    hstmts.orElse list_default (Reads.list fun s hs => Stmt.reads (h.stmts s hs))]
  rfl

theorem Program.reads {p : Program} (h : p.InRange) : Reads defaultOf ofJson p.toJson p := by
  intro j hj
  obtain ⟨f, hf, hclasses, hmethods, hentry⟩ :=
    hj.fields ["classes", "methods", "entry"] rfl (by decide)
  rw [ofJson, hf, ok_bind,
    hclasses.orElse list_default (Reads.list fun c _ => c.reads), ok_bind,
    hmethods.required rfl (Reads.list fun m hm => Method.reads (h m hm)), ok_bind,
    hentry.optional rfl (fun _ => nofun) fun s _ => reads_text s]
  rfl

/-- A program is read back from its text, and from every text that differs from it in the order of
keys and in keys left out that hold their defaults. -/
theorem Program.render_reads_back {p : Program} (h : p.InRange) :
    parse p.render = .ok p ∧ ∀ j, Variant defaultOf p.toJson j → parse j.render = .ok p := by
  have hvariant : ∀ j, Variant defaultOf p.toJson j → parse j.render = .ok p := by
    intro j hj
    rw [parse, Json.parse_render, ok_bind, reads h j hj]
  exact ⟨hvariant p.toJson (.refl _), hvariant⟩

def passingNull : Program where
  classes := []
  methods := [{
    owner := "Main", name := "main", descriptor := "", isStatic := true, isAbstract := false
    this := none, params := [], vars := []
    stmts := [.call ⟨none, ⟨"A", "f", ""⟩, [.const .null], none⟩, .ret none] }]
  entry := none

def passingNullBriefly : Json :=
  .record [("methods", .arr [.record [
    ("stmts", .arr [
      .record [
        ("args", .arr [.record [("const", .text "null")]]),
        ("callee", .record [("name", .text "f"), ("class", .text "A")]),
        ("kind", .text "invoke")],
      .record [("kind", .text "return")]]),
    ("is_static", .bool true), ("name", .text "main"), ("class", .text "Main")]])]

theorem passingNullBriefly_variant : Variant defaultOf passingNull.toJson passingNullBriefly := by
  have hcallee : Variant defaultOf (MethodRef.toJson ⟨"A", "f", ""⟩)
      (.record [("name", .text "f"), ("class", .text "A")]) :=
    .obj (.keep (.str _) (.keep (.str _) (.drop rfl .nil))) (List.reverse_perm _).symm
  have hcall : Variant defaultOf (Stmt.toJson (.call ⟨none, ⟨"A", "f", ""⟩, [.const .null], none⟩))
      (.record [("args", .arr [.record [("const", .text "null")]]),
        ("callee", .record [("name", .text "f"), ("class", .text "A")]),
        ("kind", .text "invoke")]) :=
    .obj (.keep (.str _) (.drop rfl (.keep hcallee (.keep (.refl _) (.drop rfl .nil)))))
      (List.reverse_perm _).symm
  have hreturn : Variant defaultOf (Stmt.toJson (.ret none)) (.record [("kind", .text "return")]) :=
    .obj (.keep (.str _) (.drop rfl .nil)) (.refl _)
  have hstmts := Variant.arr (.cons hcall (.cons hreturn .nil))
  exact .obj (.drop rfl (.keep (.arr (.cons (.obj
    (.keep (.str _) (.keep (.str _) (.drop rfl (.keep (.bool _) (.drop rfl (.drop rfl (.drop rfl
      (.drop rfl (.keep hstmts .nil)))))))))
    (List.reverse_perm _).symm) .nil)) (.drop rfl .nil))) (.refl _)

theorem passingNull_reads_back : passingNull.InRange ∧
    Program.parse passingNull.render = .ok passingNull ∧
      Program.parse passingNullBriefly.render = .ok passingNull :=
  have h : passingNull.InRange := by decide
  ⟨h, (Program.render_reads_back h).1,
    (Program.render_reads_back h).2 _ passingNullBriefly_variant⟩

end Programs

end PointsTo
