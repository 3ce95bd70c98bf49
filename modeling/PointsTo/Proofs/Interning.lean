import Mathlib.Data.Finmap
import Mathlib.Data.List.Dedup
import PointsTo.Proofs.FieldCopies
import PointsTo.Proofs.Numbering

/-! Numbers over whole histories, and how they are stored: the pointers in order, an index from
pointers to numbers, and the fields used through each variable. Whatever was numbered in whatever
order, the three agree. -/
namespace PointsTo

theorem FieldRef.compare_eq_lt {f g : FieldRef} : compare f g = .lt ↔
    f.owner < g.owner ∨ (f.owner = g.owner ∧ f.name < g.name) := by
  have hcompare : compare f g = (compare f.owner g.owner).then (compare f.name g.name) := rfl
  rw [hcompare, Ordering.then_eq_lt, Std.LawfulEqOrd.compare_eq_iff_eq]
  exact or_congr compareOfLessAndEq_eq_lt (and_congr_right fun _ => compareOfLessAndEq_eq_lt)

namespace PointerTable

def internAll (t : PointerTable) : List Pointer → List Nat × PointerTable
  | [] => ([], t)
  | p :: ps =>
    let (id, t) := t.intern p
    let (ids, t) := internAll t ps
    (id :: ids, t)

section Histories

variable {t u : PointerTable} {p q : Pointer} {ps : List Pointer} {v : Var} {f : FieldRef}
  {n : Nat}

theorem numbers_internAll (ps : List Pointer) : Numbers (· ∈ ps) fun t => t.internAll ps := by
  induction ps with
  | nil => exact .pure []
  | cons p ps ih =>
    have hrest : Numbers (· ∈ p :: ps) fun t => t.internAll ps :=
      ⟨ih.extends_table, ih.stable, fun t q hq =>
        (ih.adds t q hq).imp_right (List.mem_cons_of_mem p)⟩
    exact .bind (.intern List.mem_cons_self) fun id => .bind hrest fun ids => .pure (id :: ids)

theorem le_internAll (t : PointerTable) (ps : List Pointer) : t ≤ (t.internAll ps).2 :=
  (numbers_internAll ps).extends_table t

theorem lookup_of_le (h : t ≤ u) (hp : t.lookup p = some n) : u.lookup p = some n :=
  lookup_eq_some_iff.2 (get?_of_le h (lookup_eq_some_iff.1 hp))

theorem lookup_intern_self (t : PointerTable) (p : Pointer) :
    (t.intern p).2.lookup p = some (t.intern p).1 :=
  lookup_eq_some_iff.2 (t.get?_intern p)

theorem mem_pointers_iff : p ∈ t.pointers ↔ ∃ n, t.lookup p = some n := by
  simp only [lookup_eq_some_iff]
  exact Array.mem_iff_getElem?

theorem internAll_answers (t : PointerTable) (ps : List Pointer) :
    List.Forall₂ (fun p n => (t.internAll ps).2.lookup p = some n) ps (t.internAll ps).1 := by
  induction ps generalizing t with
  | nil => exact .nil
  | cons p ps ih =>
    have hle := le_internAll (t.intern p).2 ps
    exact .cons (lookup_of_le hle (t.lookup_intern_self p)) (ih (t.intern p).2)

theorem mem_internAll : p ∈ (t.internAll ps).2.pointers ↔ p ∈ t.pointers ∨ p ∈ ps := by
  refine ⟨(numbers_internAll ps).adds t p, ?_⟩
  rintro (hp | hp)
  · obtain ⟨n, hn⟩ := mem_pointers_iff.1 hp
    exact mem_pointers_iff.2 ⟨n, lookup_of_le (le_internAll t ps) hn⟩
  · obtain ⟨i, hi, rfl⟩ := List.getElem_of_mem hp
    have hanswers := List.forall₂_iff_get.1 (internAll_answers t ps)
    exact mem_pointers_iff.2 ⟨_, hanswers.2 i hi (hanswers.1 ▸ hi)⟩

/-- There are as many numbers as different pointers were asked for. -/
theorem size_internAll (ps : List Pointer) : (internAll ∅ ps).2.size = ps.dedup.length := by
  have hperm : (internAll ∅ ps).2.pointers.toList.Perm ps.dedup := by
    refine (List.perm_ext_iff_of_nodup (internAll ∅ ps).2.distinct ps.nodup_dedup).2 fun p => ?_
    rw [Array.mem_toList_iff, mem_internAll, List.mem_dedup]
    exact or_iff_right (Array.not_mem_empty p)
  exact hperm.length_eq

theorem mem_fieldsOf_intern :
    f ∈ (t.intern p).2.fieldsOf v ↔ f ∈ t.fieldsOf v ∨ p = .instanceField v f := by
  rw [mem_fieldsOf_iff, mem_fieldsOf_iff]
  have hmem : .instanceField v f ∈ (t.internAll [p]).2.pointers ↔
      .instanceField v f ∈ t.pointers ∨ .instanceField v f ∈ [p] := mem_internAll
  rw [List.mem_singleton, eq_comm (b := p)] at hmem
  exact hmem

theorem lookup_intern : (t.intern p).2.lookup q =
    if q = p then some (t.intern p).1 else t.lookup q := by
  split
  next hq => rw [hq, lookup_intern_self]
  next hq =>
    cases hl : t.lookup q with
    | some n => exact lookup_of_le (t.le_intern p) hl
    | none =>
      cases hl' : (t.intern p).2.lookup q with
      | none => rfl
      | some n =>
        rcases mem_intern (mem_pointers_iff.2 ⟨n, hl'⟩) with hmem | heq
        · obtain ⟨m, hm⟩ := mem_pointers_iff.1 hmem
          cases hl.symm.trans hm
        · exact absurd heq hq

end Histories

end PointerTable

structure StoredTable where
  pointers : Array Pointer
  index : Finmap fun _ : Pointer => UInt32
  /-- For each variable, the fields that were used through it. -/
  fields : Finmap fun _ : Var => OrderedSet FieldRef

namespace StoredTable

def empty : StoredTable := ⟨#[], ∅, ∅⟩

instance : EmptyCollection StoredTable := ⟨empty⟩

def size (s : StoredTable) : Nat := s.pointers.size

def lookup (s : StoredTable) (p : Pointer) : Option UInt32 := s.index.lookup p

def resolve (s : StoredTable) (id : UInt32) : Option Pointer := s.pointers[id.toNat]?

def fieldsOf (s : StoredTable) (base : Var) : OrderedSet FieldRef :=
  (s.fields.lookup base).getD ∅

/-- The number of a pointer. A new pointer gets the size as its number, cut to a word. -/
def intern (s : StoredTable) (p : Pointer) : UInt32 × StoredTable :=
  match s.lookup p with
  | some id => (id, s)
  | none =>
    let id := s.size.toUInt32
    (id, { s with pointers := s.pointers.push p, index := s.index.insert p id })

def note (s : StoredTable) (base : Var) (f : FieldRef) : StoredTable :=
  { s with fields := s.fields.insert base ((s.fieldsOf base).insert f) }

/-- Asks for the number of a pointer. That of an instance field is noted as used first. -/
def request (s : StoredTable) : Pointer → UInt32 × StoredTable
  | .var v => s.intern (.var v)
  | .staticField f => s.intern (.staticField f)
  | .allocation m stmt => s.intern (.allocation m stmt)
  | .instanceField base f => (s.note base f).intern (.instanceField base f)

def requestAll (s : StoredTable) : List Pointer → List UInt32 × StoredTable
  | [] => ([], s)
  | p :: ps =>
    let (id, s) := s.request p
    let (ids, s) := requestAll s ps
    (id :: ids, s)

section Requests

variable {s : StoredTable} {p q : Pointer} {v base : Var} {f g : FieldRef} {id : UInt32}

theorem intern_of_lookup (h : s.lookup p = some id) : s.intern p = (id, s) := by
  simp only [intern, h]

theorem intern_of_new (h : s.lookup p = none) : s.intern p = (s.size.toUInt32,
    ⟨s.pointers.push p, s.index.insert p s.size.toUInt32, s.fields⟩) := by
  simp only [intern, h]

theorem fieldsOf_intern : (s.intern p).2.fieldsOf v = s.fieldsOf v := by
  cases h : s.lookup p with
  | some id => rw [intern_of_lookup h]
  | none => rw [intern_of_new h]; rfl

theorem mem_fieldsOf_note :
    f ∈ (s.note base g).fieldsOf v ↔ f ∈ s.fieldsOf v ∨ (base = v ∧ g = f) := by
  rw [note, fieldsOf]
  by_cases hv : v = base
  · rw [hv, Finmap.lookup_insert, Option.getD_some, OrderedSet.mem_insert]
    grind
  · rw [Finmap.lookup_insert_of_ne _ hv]
    exact (or_iff_left fun h => hv h.1.symm).symm

theorem request_eq (s : StoredTable) (p : Pointer) : (s.request p).1 = (s.intern p).1 ∧
    (s.request p).2.pointers = (s.intern p).2.pointers ∧
    (s.request p).2.index = (s.intern p).2.index := by
  cases p with
  | instanceField base f =>
    have hnote : (s.note base f).lookup (.instanceField base f) =
        s.lookup (.instanceField base f) := rfl
    cases h : s.lookup (.instanceField base f) with
    | some id =>
      rw [request, intern_of_lookup h, intern_of_lookup (hnote.trans h)]
      exact ⟨rfl, rfl, rfl⟩
    | none =>
      rw [request, intern_of_new h, intern_of_new (hnote.trans h)]
      exact ⟨rfl, rfl, rfl⟩
  | _ => exact ⟨rfl, rfl, rfl⟩

theorem mem_fieldsOf_request :
    f ∈ (s.request p).2.fieldsOf v ↔ f ∈ s.fieldsOf v ∨ p = .instanceField v f := by
  cases p with
  | instanceField base g =>
    rw [request, fieldsOf_intern, mem_fieldsOf_note, Pointer.instanceField.injEq]
  | _ =>
    rw [request, fieldsOf_intern]
    exact (or_iff_left nofun).symm

theorem request_keeps (s : StoredTable) (q : Pointer) :
    (s.resolve id = some p → (s.request q).2.resolve id = some p) ∧
      (s.lookup p = some id → (s.request q).2.lookup p = some id) := by
  obtain ⟨-, hpointers, hindex⟩ := s.request_eq q
  rw [resolve, resolve, lookup, lookup, hpointers, hindex]
  cases hl : s.lookup q with
  | some id' =>
    rw [intern_of_lookup hl]
    exact ⟨fun h => h, fun h => h⟩
  | none =>
    rw [intern_of_new hl]
    refine ⟨fun h => ?_, fun h => ?_⟩
    · have hlt := (Array.getElem?_eq_some_iff.1 h).1
      rw [Array.getElem?_push, if_neg (Nat.ne_of_lt hlt)]
      exact h
    · have hne : p ≠ q := by
        rintro rfl
        cases hl.symm.trans h
      rw [Finmap.lookup_insert_of_ne _ hne]
      exact h

theorem requestAll_keeps (s : StoredTable) (ps : List Pointer) :
    (s.resolve id = some p → (s.requestAll ps).2.resolve id = some p) ∧
      (s.lookup p = some id → (s.requestAll ps).2.lookup p = some id) := by
  induction ps generalizing s with
  | nil => exact ⟨fun h => h, fun h => h⟩
  | cons q ps ih =>
    obtain ⟨hresolve, hlookup⟩ := ih (s.request q).2
    exact ⟨fun h => hresolve ((s.request_keeps q).1 h),
      fun h => hlookup ((s.request_keeps q).2 h)⟩

theorem note_of_mem (h : f ∈ s.fieldsOf base) : s.note base f = s := by
  have hsame : (s.fieldsOf base).insert f = s.fieldsOf base := by
    refine OrderedSet.ext fun g => ?_
    rw [OrderedSet.mem_insert]
    exact or_iff_right_of_imp fun heq => heq ▸ h
  have hfields : s.fields.insert base (s.fieldsOf base) = s.fields := by
    refine Finmap.ext_lookup fun v => ?_
    by_cases hv : v = base
    · rw [hv, Finmap.lookup_insert, fieldsOf]
      cases hstored : s.fields.lookup base with
      | some fields => rfl
      | none =>
        rw [fieldsOf, hstored] at h
        exact absurd h (OrderedSet.not_mem_empty f)
    · rw [Finmap.lookup_insert_of_ne _ hv]
  rw [note, hsame, hfields]

end Requests

structure Represents (s : StoredTable) (t : PointerTable) : Prop where
  pointers : s.pointers = t.pointers
  index : ∀ p, (s.lookup p).map UInt32.toNat = t.lookup p
  fields : ∀ v, s.fieldsOf v = t.fieldsOf v

section Representation

variable {s : StoredTable} {t : PointerTable} {p q : Pointer} {ps : List Pointer} {v : Var}
  {f : FieldRef} {id : UInt32}

theorem represents_empty : Represents ∅ ∅ where
  pointers := rfl
  index p := by
    have hnone : (∅ : StoredTable).lookup p = none := Finmap.lookup_empty p
    have hnone' : (∅ : PointerTable).lookup p = none := Array.findIdx?_empty
    rw [hnone, hnone', Option.map_none]
  fields v := by
    have hnone : (∅ : StoredTable).fields.lookup v = none := Finmap.lookup_empty v
    rw [fieldsOf, hnone]
    rfl

theorem Represents.lookup_iff (h : s.Represents t) :
    s.lookup p = some id ↔ t.lookup p = some id.toNat := by
  rw [← h.index]
  cases s.lookup p with
  | none => simp
  | some id' => simp [UInt32.toNat_inj]

theorem Represents.resolve_iff (h : s.Represents t) :
    s.resolve id = some p ↔ t.lookup p = some id.toNat := by
  rw [resolve, h.pointers, PointerTable.lookup_eq_some_iff]
  rfl

theorem Represents.intern (h : s.Represents t) (hsize : (t.intern p).2.size ≤ 2 ^ 32) :
    (s.intern p).1.toNat = (t.intern p).1 ∧
      (s.intern p).2.pointers = (t.intern p).2.pointers ∧
      ∀ q, ((s.intern p).2.lookup q).map UInt32.toNat = (t.intern p).2.lookup q := by
  cases hl : s.lookup p with
  | some id =>
    have hget := PointerTable.lookup_eq_some_iff.1 (h.lookup_iff.1 hl)
    rw [intern_of_lookup hl, PointerTable.intern_of_get? hget]
    exact ⟨rfl, h.pointers, h.index⟩
  | none =>
    have hnew : t.lookup p = none := by rw [← h.index, hl]; rfl
    rcases t.intern_eq p with ⟨n, hn, -⟩ | ⟨hid, hpointers⟩
    · rw [PointerTable.lookup_eq_some_iff.2 hn] at hnew
      cases hnew
    · -- the new pointer is counted in, so the size before it is a word
      have hfits : s.size.toUInt32.toNat = t.size := by
        rw [PointerTable.size, hpointers, Array.size_push] at hsize
        rw [size, h.pointers]
        exact Nat.mod_eq_of_lt hsize
      rw [intern_of_new hl]
      refine ⟨hfits.trans hid.symm, ?_, fun q => ?_⟩
      · rw [hpointers, h.pointers]
      · rw [PointerTable.lookup_intern, lookup]
        split
        next hq => rw [hq, Finmap.lookup_insert, hid, ← hfits]; rfl
        next hq => rw [Finmap.lookup_insert_of_ne _ hq]; exact h.index q

/-- As long as the numbers fit into words, what is stored stays that of the table. -/
theorem Represents.request (h : s.Represents t) (hsize : (t.intern p).2.size ≤ 2 ^ 32) :
    (s.request p).1.toNat = (t.intern p).1 ∧ (s.request p).2.Represents (t.intern p).2 := by
  obtain ⟨hid, hpointers, hindex⟩ := h.intern hsize
  obtain ⟨hid', hpointers', hindex'⟩ := s.request_eq p
  refine ⟨hid' ▸ hid, hpointers'.trans hpointers, fun q => ?_, fun v => ?_⟩
  · rw [lookup, hindex']
    exact hindex q
  · refine OrderedSet.ext fun f => ?_
    rw [mem_fieldsOf_request, PointerTable.mem_fieldsOf_intern, h.fields]

theorem Represents.requestAll (h : s.Represents t) (hsize : (t.internAll ps).2.size ≤ 2 ^ 32) :
    (s.requestAll ps).1.map UInt32.toNat = (t.internAll ps).1 ∧
      (s.requestAll ps).2.Represents (t.internAll ps).2 := by
  induction ps generalizing s t with
  | nil => exact ⟨rfl, h⟩
  | cons p ps ih =>
    have hle := PointerTable.le_internAll (t.intern p).2 ps
    have hfits : (t.intern p).2.size ≤ 2 ^ 32 := (PointerTable.size_le_of_le hle).trans hsize
    obtain ⟨hid, hnext⟩ := h.request hfits
    obtain ⟨hids, hlast⟩ := ih hnext hsize
    exact ⟨congrArg₂ List.cons hid hids, hlast⟩

theorem Represents.exists_lookup_iff (h : s.Represents t) :
    (∃ id, s.lookup p = some id) ↔ p ∈ t.pointers := by
  rw [PointerTable.mem_pointers_iff, ← h.index]
  cases s.lookup p <;> simp

/-- Asking again for the number of a pointer gives the same number, and changes nothing. -/
theorem Represents.request_of_lookup (h : s.Represents t) (hl : s.lookup p = some id) :
    s.request p = (id, s) := by
  have hintern := intern_of_lookup hl
  cases p with
  | instanceField base f =>
    -- the field was noted when the pointer got its number
    have hmem : f ∈ s.fieldsOf base := by
      rw [h.fields, PointerTable.mem_fieldsOf_iff, PointerTable.mem_pointers_iff]
      exact ⟨_, h.lookup_iff.1 hl⟩
    rw [StoredTable.request, note_of_mem hmem, hintern]
  | _ => exact hintern

/-- Pointers that got their numbers from one table got the same one exactly if they are equal. -/
theorem same_number_iff {ids : List UInt32} {i j : Nat}
    (hinverse : ∀ id p, s.resolve id = some p ↔ s.lookup p = some id)
    (hanswers : ps.Forall₂ (fun p id => s.lookup p = some id) ids) (hi : i < ps.length)
    (hj : j < ps.length) : ids[i]? = ids[j]? ↔ ps[i]? = ps[j]? := by
  obtain ⟨hlength, hlookup⟩ := List.forall₂_iff_get.1 hanswers
  have hlookupi : s.lookup ps[i] = some ids[i] := hlookup i hi (hlength ▸ hi)
  have hlookupj : s.lookup ps[j] = some ids[j] := hlookup j hj (hlength ▸ hj)
  rw [List.getElem?_eq_getElem hi, List.getElem?_eq_getElem hj,
    List.getElem?_eq_getElem (hlength ▸ hi), List.getElem?_eq_getElem (hlength ▸ hj)]
  constructor
  · intro heq
    rw [Option.some.inj heq] at hlookupi
    exact ((hinverse _ _).2 hlookupi).symm.trans ((hinverse _ _).2 hlookupj)
  · intro heq
    rw [Option.some.inj heq] at hlookupi
    exact hlookupi.symm.trans hlookupj

end Representation

/-- What holds when the pointers `ps` were asked for in turn and got the numbers `ids`. -/
structure Coherent (ps : List Pointer) (ids : List UInt32) (s : StoredTable) : Prop where
  /-- The numbers in use are those below the size. -/
  numbers : ∀ id, (∃ p, s.resolve id = some p) ↔ id.toNat < s.size
  /-- The pointers with a number are those that were asked for. -/
  asked : ∀ p, (∃ id, s.lookup p = some id) ↔ p ∈ ps
  size : s.size = ps.dedup.length
  /-- A number stands for the pointer that has it. -/
  inverse : ∀ id p, s.resolve id = some p ↔ s.lookup p = some id
  /-- What was given at any time is still the number of the pointer. -/
  answers : ps.Forall₂ (fun p id => s.lookup p = some id) ids
  /-- Pointers got one number exactly if they are the same pointer. -/
  apart : ∀ i j : Nat, i < ps.length → j < ps.length → (ids[i]? = ids[j]? ↔ ps[i]? = ps[j]?)
  /-- No number ever changes its meaning. -/
  keeps : ∀ later id p, s.resolve id = some p →
    (s.requestAll later).2.resolve id = some p ∧ (s.requestAll later).2.lookup p = some id
  /-- A pointer that is asked for again gets the number that it has. -/
  again : ∀ id p, s.lookup p = some id →
    s.request p = (id, s) ∧ ∀ later, ((s.requestAll later).2.request p).1 = id
  /-- The fields noted for a variable are those that have a number with it, in ascending order. -/
  fields : ∀ v, (∀ f, f ∈ (s.fieldsOf v).toList ↔ ∃ id, s.lookup (.instanceField v f) = some id) ∧
    (s.fieldsOf v).toList.Pairwise fun f g =>
      f.owner < g.owner ∨ (f.owner = g.owner ∧ f.name < g.name)
  /-- The table that is not cut to words gives the same numbers, and holds the same. -/
  table : ids.map UInt32.toNat = (PointerTable.internAll ∅ ps).1 ∧
    s.Represents (PointerTable.internAll ∅ ps).2

/-- As long as there are words for all pointers, the pointers, the index and the fields agree after
every history. -/
theorem requests_coherent (ps : List Pointer) (h : ps.dedup.length ≤ 2 ^ 32) :
    Coherent ps (requestAll ∅ ps).1 (requestAll ∅ ps).2 := by
  have hsize : (PointerTable.internAll ∅ ps).2.size ≤ 2 ^ 32 := by
    rw [PointerTable.size_internAll]
    exact h
  obtain ⟨hids, hrep⟩ := represents_empty.requestAll hsize
  have hinverse : ∀ id p, (requestAll ∅ ps).2.resolve id = some p ↔
      (requestAll ∅ ps).2.lookup p = some id :=
    fun id p => hrep.resolve_iff.trans hrep.lookup_iff.symm
  have hanswers : ps.Forall₂ (fun p id => (requestAll ∅ ps).2.lookup p = some id)
      (requestAll ∅ ps).1 := by
    have hall := PointerTable.internAll_answers ∅ ps
    rw [← hids, List.forall₂_map_right_iff] at hall
    exact hall.imp fun p id hp => hrep.lookup_iff.2 hp
  constructor
  case numbers =>
    intro id
    exact ⟨fun ⟨p, hp⟩ => (Array.getElem?_eq_some_iff.1 hp).1,
      fun hlt => ⟨_, Array.getElem?_eq_getElem hlt⟩⟩
  case asked =>
    intro p
    rw [hrep.exists_lookup_iff, PointerTable.mem_internAll]
    exact or_iff_right (Array.not_mem_empty p)
  case size =>
    rw [size, hrep.pointers]
    exact PointerTable.size_internAll ps
  case inverse => exact hinverse
  case answers => exact hanswers
  case apart => exact fun i j hi hj => same_number_iff hinverse hanswers hi hj
  case keeps =>
    intro later id p hp
    exact ⟨(requestAll_keeps _ later).1 hp, (requestAll_keeps _ later).2 ((hinverse id p).1 hp)⟩
  case again =>
    intro id p hp
    refine ⟨hrep.request_of_lookup hp, fun later => ?_⟩
    rw [(request_eq _ p).1, intern_of_lookup ((requestAll_keeps _ later).2 hp)]
  case fields =>
    intro v
    refine ⟨fun f => ?_, ((requestAll ∅ ps).2.fieldsOf v).ascending.imp FieldRef.compare_eq_lt.1⟩
    rw [hrep.exists_lookup_iff, ← PointerTable.mem_fieldsOf_iff, hrep.fields]
    rfl
  case table => exact ⟨hids, hrep⟩

def reusedFields : List Pointer :=
  [.var ⟨0, 0⟩, .instanceField ⟨0, 0⟩ ⟨"A", "g"⟩, .staticField ⟨"A", "f"⟩, .allocation 0 0,
    .instanceField ⟨0, 0⟩ ⟨"A", "f"⟩, .instanceField ⟨0, 0⟩ ⟨"A", "g"⟩]

theorem reused_fields_coherent : reusedFields.dedup.length ≤ 2 ^ 32 ∧
    Coherent reusedFields [0, 1, 2, 3, 4, 1] (requestAll ∅ reusedFields).2 ∧
    ((requestAll ∅ reusedFields).2.fieldsOf ⟨0, 0⟩).toList = [⟨"A", "f"⟩, ⟨"A", "g"⟩] := by
  have hfits : reusedFields.dedup.length ≤ 2 ^ 32 := by decide +kernel
  have hids : (requestAll ∅ reusedFields).1 = [0, 1, 2, 3, 4, 1] := by decide +kernel
  exact ⟨hfits, hids ▸ requests_coherent reusedFields hfits, by decide +kernel⟩

end StoredTable

end PointsTo
