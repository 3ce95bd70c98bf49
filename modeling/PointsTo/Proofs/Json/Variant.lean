import Mathlib.Data.List.Nodup
import Mathlib.Data.List.Perm.Basic
import PointsTo.Json.Read
import PointsTo.Proofs.Fault
import PointsTo.Proofs.Text.Double

/-! Objects with their members in another order, and without some of those that hold a default.
Readers that take fields by name see no difference. -/
namespace PointsTo.Json

variable {defaults : String → Option Json} {R : Json → Json → Prop}
  {ms kept : List (JsonText × Json)} {members : List (String × Json)} {k : String} {v w j : Json}

/-- Each member is kept with a related value, or left out if it holds the default of its key. -/
inductive Kept (defaults : String → Option Json) (R : Json → Json → Prop) :
    List (JsonText × Json) → List (JsonText × Json) → Prop where
  | nil : Kept defaults R [] []
  | keep {k v w ms ns} :
    R v w → Kept defaults R ms ns → Kept defaults R ((k, v) :: ms) ((k, w) :: ns)
  | drop {k v ms ns} :
    defaults k = some v → Kept defaults R ms ns → Kept defaults R ((some k, v) :: ms) ns

/-- The second value is the first one up to the order of members in its objects, and without some
of the members that hold the default of their key. -/
inductive Variant (defaults : String → Option Json) : Json → Json → Prop where
  | null : Variant defaults null null
  | bool (b : Bool) : Variant defaults (bool b) (bool b)
  | int (n : Int) : Variant defaults (int n) (int n)
  | decimal (negative : Bool) (n : Nat) (e : Int) :
    Variant defaults (decimal negative n e) (decimal negative n e)
  | str (k : JsonText) : Variant defaults (str k) (str k)
  | arr {xs ys} : List.Forall₂ (Variant defaults) xs ys → Variant defaults (arr xs) (arr ys)
  | obj {ms kept ns} :
    Kept defaults (Variant defaults) ms kept → kept.Perm ns → Variant defaults (obj ms) (obj ns)

mutual

theorem Variant.refl : ∀ v : Json, Variant defaults v v
  | Json.null => .null
  | Json.bool b => .bool b
  | Json.int n => .int n
  | Json.decimal negative n e => .decimal negative n e
  | Json.str k => .str k
  | Json.arr xs => .arr (forall₂_variant xs)
  | Json.obj ms => .obj (kept_all ms) (.refl ms)

theorem forall₂_variant : ∀ xs : List Json, List.Forall₂ (Variant defaults) xs xs
  | [] => .nil
  | x :: xs => .cons (Variant.refl x) (forall₂_variant xs)

theorem kept_all : ∀ ms : List (JsonText × Json), Kept defaults (Variant defaults) ms ms
  | [] => .nil
  | (_, v) :: ms => .keep (Variant.refl v) (kept_all ms)

end

theorem Variant.eq_null (h : Variant defaults v Json.null) : v = Json.null := by
  cases h
  rfl

section Members

theorem Kept.sublist_keys (h : Kept defaults R ms kept) :
    (kept.map Prod.fst).Sublist (ms.map Prod.fst) := by
  induction h with
  | nil => exact .slnil
  | keep _ _ ih => exact ih.cons_cons _
  | drop _ _ ih => exact ih.cons _

theorem Kept.of_mem (h : Kept defaults R ms kept) (hnodup : (ms.map Prod.fst).Nodup)
    (hv : (some k, v) ∈ ms) :
    (∃ w, R v w ∧ (some k, w) ∈ kept) ∨ defaults k = some v ∧ some k ∉ kept.map Prod.fst := by
  induction h with
  | nil => cases hv
  | @keep l u w ms ns hw hkept ih =>
    obtain ⟨hnot, hnodup⟩ := List.nodup_cons.1 hnodup
    rcases List.mem_cons.1 hv with heq | hmem
    · cases heq
      exact .inl ⟨w, hw, List.mem_cons_self⟩
    · have hkey : some k ∈ ms.map Prod.fst := List.mem_map_of_mem hmem
      have hne : some k ≠ l := fun heq => hnot (heq ▸ hkey)
      rcases ih hnodup hmem with ⟨w', hw', hmem⟩ | ⟨hdefault, habsent⟩
      · exact .inl ⟨w', hw', List.mem_cons_of_mem _ hmem⟩
      · refine .inr ⟨hdefault, fun hmem => ?_⟩
        rcases List.mem_cons.1 hmem with heq | hmem
        · exact hne heq
        · exact habsent hmem
  | @drop l u ms ns hdefault hkept ih =>
    obtain ⟨hnot, hnodup⟩ := List.nodup_cons.1 hnodup
    rcases List.mem_cons.1 hv with heq | hv
    · cases heq
      exact .inr ⟨hdefault, fun hmem => hnot (hkept.sublist_keys.subset hmem)⟩
    · exact ih hnodup hv

theorem member?_of_mem (hnodup : (ms.map Prod.fst).Nodup) (hv : (some k, v) ∈ ms) :
    member? k ms = some v := by
  induction ms with
  | nil => cases hv
  | cons m ms ih =>
    obtain ⟨hnot, hnodup⟩ := List.nodup_cons.1 hnodup
    rcases List.mem_cons.1 hv with rfl | hv
    · simp [member?]
    · have hne : m.1 ≠ some k := fun heq => hnot (heq ▸ List.mem_map_of_mem hv)
      rw [← ih hnodup hv, member?, member?, List.find?_cons_of_neg (by simpa using hne)]

theorem member?_of_not_mem (h : some k ∉ ms.map Prod.fst) : member? k ms = none := by
  have hne : ∀ m ∈ ms, m.1 ≠ some k := fun m hm heq => h (heq ▸ List.mem_map_of_mem hm)
  rw [member?, List.find?_eq_none.2 fun m hm => by simpa using hne m hm]
  rfl

theorem countP_key_le_one {α β : Type} [DecidableEq α] {es : List (α × β)}
    (h : (es.map Prod.fst).Nodup) (k : α) : (es.countP fun e => e.1 = k) ≤ 1 := by
  have heq : (es.countP fun e => e.1 = k) = (es.map Prod.fst).count k := by
    rw [List.count_eq_countP, List.countP_map]
    exact List.countP_congr fun e _ => by simp
  rw [heq]
  exact List.nodup_iff_count_le_one.1 h k

theorem checkRepeated_of_nodup (names : List String) (h : (ms.map Prod.fst).Nodup) :
    checkRepeated names ms = .ok () := by
  have hnone : names.find? (fun name => 1 < ms.countP fun m => m.1 = some name) = none :=
    List.find?_eq_none.2 fun name _ => by
      simpa using countP_key_le_one h (some name)
  rw [checkRepeated, hnone]

theorem checkKeys_of_texts (names : List String) (h : ∀ m ∈ ms, m.1.isSome = true) :
    checkKeys false names ms = .ok () := by
  induction ms with
  | nil => rfl
  | cons m ms ih =>
    obtain ⟨hm, hms⟩ := List.forall_mem_cons.1 h
    obtain ⟨k, hk⟩ := Option.isSome_iff_exists.1 hm
    have hstep : checkKeys false names (m :: ms) = checkKeys false names ms := by
      rw [checkKeys, List.forM_eq_forM, List.forM_cons, hk]
      rfl
    rw [hstep, ih hms]

end Members

section Fields

/-- The reader gives one result on every variant of the value. -/
def Reads {α : Type} (defaults : String → Option Json) (read : Json → Except JsonError α) (v : Json)
    (a : α) : Prop :=
  ∀ w, Variant defaults v w → read w = .ok a

inductive Field.Holds (defaults : String → Option Json) (name : String) (v : Json) :
    Field → Prop where
  | given {w : Json} : Variant defaults v w → Holds defaults name v (.given w)
  | absent : defaults name = some v → Holds defaults name v (.absent name)

theorem Kept.keys_record (h : Kept defaults R (members.map fun m => (some m.1, m.2)) kept) :
    (kept.map Prod.fst).Sublist (members.map fun m => some m.1) := by
  have hsub := h.sublist_keys
  rwa [List.map_map] at hsub

theorem nodup_keys_record (h : (members.map Prod.fst).Nodup) :
    ((members.map fun m => ((some m.1 : JsonText), m.2)).map Prod.fst).Nodup := by
  have hmap := h.map fun _ _ => Option.some.inj
  rwa [List.map_map] at hmap ⊢

theorem Variant.fields (h : Variant defaults (record members) j) (names : List String)
    (hnames : members.map Prod.fst = names) (hnodup : names.Nodup) :
    ∃ f, j.fields names false = .ok f ∧
      members.Forall fun m => (f m.1).Holds defaults m.1 m.2 := by
  cases h with
  | @obj _ kept ns hkept hperm =>
    have hkeys := nodup_keys_record (hnames ▸ hnodup)
    have hkeptKeys := hkept.sublist_keys.nodup hkeys
    have hnsKeys : (ns.map Prod.fst).Nodup := (hperm.map Prod.fst).nodup_iff.1 hkeptKeys
    have htexts : ∀ m ∈ ns, m.1.isSome = true := by
      intro m hm
      have hkey := hkept.keys_record.subset (List.mem_map_of_mem (hperm.mem_iff.2 hm))
      obtain ⟨m', -, heq⟩ := List.mem_map.1 hkey
      rw [← heq]
      rfl
    refine ⟨fun name => (member? name ns).elim (.absent name) .given, ?_,
      List.forall_iff_forall_mem.2 ?_⟩
    · rw [Json.fields, checkKeys_of_texts names htexts, ok_bind,
        checkRepeated_of_nodup names hnsKeys, ok_bind]
      rfl
    · intro m hm
      have hmem : ((some m.1 : JsonText), m.2) ∈ members.map fun m => (some m.1, m.2) :=
        List.mem_map_of_mem hm
      rcases hkept.of_mem hkeys hmem with ⟨w, hw, hmem⟩ | ⟨hdefault, habsent⟩
      · dsimp only
        rw [member?_of_mem hnsKeys (hperm.mem_iff.1 hmem)]
        exact .given hw
      · dsimp only
        rw [member?_of_not_mem fun h => habsent ((hperm.map Prod.fst).mem_iff.2 h)]
        exact .absent hdefault

variable {α : Type} {read : Json → Except JsonError α} {field : Field} {a : α}

theorem Field.Holds.required (h : field.Holds defaults k v) (hk : defaults k = none)
    (hread : Reads defaults read v a) : field.required read = .ok a := by
  cases h with
  | given hw => exact hread _ hw
  | absent hdefault =>
    rw [hk] at hdefault
    cases hdefault

theorem Field.Holds.orElse {default : α} (h : field.Holds defaults k v)
    (hk : defaults k = some v → a = default) (hread : Reads defaults read v a) :
    field.orElse default read = .ok a := by
  cases h with
  | given hw => exact hread _ hw
  | absent hdefault => rw [hk hdefault, Field.orElse]

/-- A value that may be absent is told from null by its own shape. -/
theorem Field.Holds.optional {o : Option α} {write : α → Json}
    (h : field.Holds defaults k (ofOption write o)) (hk : defaults k = some null)
    (hnull : ∀ a, write a ≠ null) (hread : ∀ a ∈ o, Reads defaults read (write a) a) :
    field.optional read = .ok o := by
  cases o with
  | none =>
    cases h with
    | given hw =>
      cases hw
      rfl
    | absent => rfl
  | some a =>
    cases h with
    | given hw =>
      have ha := hread a rfl _ hw
      rw [Field.optional, readOption, ha]
      · rfl
      · rintro rfl
        exact hnull a hw.eq_null
    | absent hdefault =>
      rw [hk] at hdefault
      exact absurd (Option.some.inj hdefault).symm (hnull a)

end Fields

section Values

variable {α : Type} {read : Json → Except JsonError α}

theorem reads_text (s : String) : Reads defaults readText (text s) s := by
  intro w hw
  cases hw
  rfl

theorem reads_bool (b : Bool) : Reads defaults readBool (bool b) b := by
  intro w hw
  cases hw
  rfl

theorem reads_int64 {n : Int} (hlow : -capacity 63 ≤ n) (hhigh : n < capacity 63) :
    Reads defaults readInt64 (int n) n := by
  intro w hw
  cases hw
  exact if_pos ⟨hlow, hhigh⟩

theorem readInt_nat {n high : Nat} (h : n < high) : readInt 0 high (nat n) = .ok (n : Int) :=
  if_pos ⟨Int.natCast_nonneg n, Int.ofNat_lt.2 h⟩

theorem reads_nat32 {n : Nat} (h : n < capacity 32) : Reads defaults readNat32 (nat n) n := by
  intro w hw
  cases hw
  rw [readNat32, ← nat, readInt_nat h]
  rfl

theorem reads_nat64 {n : Nat} (h : n < capacity 64) : Reads defaults readNat64 (nat n) n := by
  intro w hw
  cases hw
  rw [readNat64, ← nat, readInt_nat h]
  rfl

theorem mapM_of_forall₂ {write : α → Json} {xs : List α} {ys : List Json}
    (h : List.Forall₂ (Variant defaults) (xs.map write) ys)
    (hread : ∀ x ∈ xs, Reads defaults read (write x) x) : ys.mapM read = .ok xs := by
  induction xs generalizing ys with
  | nil =>
    cases h
    rfl
  | cons x xs ih =>
    obtain ⟨hx, hxs⟩ := List.forall_mem_cons.1 hread
    cases h with
    | cons hhead htail =>
      rw [List.mapM_cons, hx _ hhead, ok_bind, ih htail hxs]
      rfl

theorem Reads.list {write : α → Json} {xs : List α}
    (h : ∀ x ∈ xs, Reads defaults read (write x) x) :
    Reads defaults (readList read) (ofList write xs) xs := by
  intro w hw
  cases hw with
  | arr hall => exact mapM_of_forall₂ hall h

theorem Variant.choice (h : Variant defaults (record [(k, v)]) j) (hk : defaults k = none) :
    ∃ w, Variant defaults v w ∧ j.readChoice = .ok (k, some w) := by
  cases h with
  | obj hkept hperm =>
    cases hkept with
    | keep hw hrest =>
      cases hrest
      cases List.singleton_perm.1 hperm
      exact ⟨_, hw, rfl⟩
    | drop hdefault =>
      rw [hk] at hdefault
      cases hdefault

end Values

section Tagged

variable {tag : String}

theorem Kept.filter_tag (h : Kept defaults R ms kept) (htag : some tag ∉ ms.map Prod.fst) :
    kept.filter (·.1 ≠ some tag) = kept := by
  refine List.filter_eq_self.2 fun m hm => decide_eq_true fun heq => htag ?_
  rw [← heq]
  exact h.sublist_keys.subset (List.mem_map_of_mem hm)

/-- The tag of a record may stand anywhere. The other members are a variant of the rest. -/
theorem Variant.tagged (h : Variant defaults (record ((tag, v) :: members)) j)
    (htag : defaults tag = none) (hnodup : (((tag, v) :: members).map Prod.fst).Nodup) :
    ∃ ns w, j = Json.obj ns ∧ checkRepeated [tag] ns = .ok () ∧ Variant defaults v w ∧
      member? tag ns = some w ∧
      Variant defaults (record members) (Json.obj (ns.filter (·.1 ≠ some tag))) := by
  cases h with
  | @obj _ kept ns hkept hperm =>
    have hkeys := nodup_keys_record hnodup
    have hkeptKeys := hkept.sublist_keys.nodup hkeys
    have hnsKeys : (ns.map Prod.fst).Nodup := (hperm.map Prod.fst).nodup_iff.1 hkeptKeys
    -- The tag has no default, so it is not left out.
    cases hkept with
    | @keep _ _ w _ rest hw hrest =>
      have hnot := (List.nodup_cons.1 hkeys).1
      refine ⟨ns, w, rfl, checkRepeated_of_nodup [tag] hnsKeys, hw,
        member?_of_mem hnsKeys (hperm.mem_iff.1 List.mem_cons_self), .obj hrest ?_⟩
      have hfilter := hperm.filter (·.1 ≠ some tag)
      rwa [List.filter_cons_of_neg (by simp), hrest.filter_tag hnot] at hfilter
    | drop hdefault =>
      rw [htag] at hdefault
      cases hdefault

end Tagged

section Readability

theorem Kept.exists_mem (h : Kept defaults R ms kept) {m : JsonText × Json} (hm : m ∈ kept) :
    ∃ v, R v m.2 ∧ (m.1, v) ∈ ms := by
  induction h with
  | nil => cases hm
  | keep hw _ ih =>
    rcases List.mem_cons.1 hm with rfl | hm
    · exact ⟨_, hw, List.mem_cons_self⟩
    · obtain ⟨v, hv, hmem⟩ := ih hm
      exact ⟨v, hv, List.mem_cons_of_mem _ hmem⟩
  | drop _ _ ih =>
    obtain ⟨v, hv, hmem⟩ := ih hm
    exact ⟨v, hv, List.mem_cons_of_mem _ hmem⟩

theorem all_of_forall₂ {p : Json → Bool} {xs ys : List Json} (h : List.Forall₂ R xs ys)
    (hR : ∀ x y, R x y → p x = true → p y = true) (hxs : xs.all p = true) : ys.all p = true := by
  induction h with
  | nil => rfl
  | cons hxy _ ih =>
    rw [List.all_cons, Bool.and_eq_true] at hxs ⊢
    exact ⟨hR _ _ hxy hxs.1, ih hxs.2⟩

theorem Variant.isReadable {depth : Nat} (h : Variant defaults v w)
    (hv : v.isReadable depth = true) : w.isReadable depth = true := by
  induction depth generalizing v w with
  | zero =>
    cases h with
    | null | bool | int | decimal | str => exact hv
    | arr | obj => cases hv
  | succ depth ih =>
    cases h with
    | null | bool | int | decimal | str => exact hv
    | arr hall => exact all_of_forall₂ hall (fun _ _ => ih) hv
    | obj hkept hperm =>
      refine List.all_eq_true.2 fun m hm => ?_
      obtain ⟨u, hu, hmem⟩ := hkept.exists_mem (hperm.mem_iff.2 hm)
      have hboth := List.all_eq_true.1 hv _ hmem
      rw [Bool.and_eq_true] at hboth ⊢
      exact ⟨hboth.1, ih hu hboth.2⟩

variable {α : Type} {depth : Nat}

theorem isReadable_text (s : String) : (text s).isReadable depth = true := by
  cases depth <;> rfl

theorem isReadable_int {n : Int} (h : n.natAbs < capacity 64) :
    (int n).isReadable depth = true := by
  cases depth <;> exact productFitsDouble_of_lt h

theorem isReadable_nat {n : Nat} (h : n < capacity 64) : (nat n).isReadable depth = true :=
  isReadable_int h

theorem isReadable_record (h : members.Forall fun m => m.2.isReadable depth = true) :
    (record members).isReadable (depth + 1) = true := by
  refine List.all_eq_true.2 fun m hm => ?_
  obtain ⟨m', hm', rfl⟩ := List.mem_map.1 hm
  exact List.forall_iff_forall_mem.1 h m' hm'

theorem isReadable_ofList {write : α → Json} {xs : List α}
    (h : ∀ x ∈ xs, (write x).isReadable depth = true) :
    (ofList write xs).isReadable (depth + 1) = true := by
  refine List.all_eq_true.2 fun j hj => ?_
  obtain ⟨x, hx, rfl⟩ := List.mem_map.1 hj
  exact h x hx

theorem isReadable_ofOption {write : α → Json} {o : Option α}
    (h : ∀ a ∈ o, (write a).isReadable depth = true) :
    (ofOption write o).isReadable depth = true := by
  cases o with
  | none => cases depth <;> rfl
  | some a => exact h a rfl

end Readability

end PointsTo.Json
