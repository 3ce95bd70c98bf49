import PointsTo.Proofs.Numbering

/-! The blocks of one method as segments of its statements. -/
namespace PointsTo

theorem getElem?_segments (n : Nat) (starts : List Nat) (i : Nat) :
    (segments n starts)[i]? = starts[i]?.map fun s => (s, starts[i + 1]?.getD n - 1) := by
  induction starts generalizing i with
  | nil => rfl
  | cons s ss ih =>
    cases ss with
    | nil => cases i <;> simp [segments]
    | cons next rest =>
      cases i with
      | zero => simp [segments]
      | succ i =>
        have h := ih i
        simpa [segments] using h

@[simp] theorem length_segments (n : Nat) (starts : List Nat) :
    (segments n starts).length = starts.length := by
  fun_induction segments n starts with
  | case1 => rfl
  | case2 => rfl
  | case3 s next rest ih => rw [List.length_cons, List.length_cons, ih]

section

variable {h : Recognizer} {m : MethodId} {stmts : List Stmt} {receiver : Option Var}
  {t : PointerTable}

def methodEffects (h : Recognizer) (m : MethodId) (stmts : List Stmt) (receiver : Option Var)
    (t : PointerTable) : List (Effect Nat) :=
  (Effect.numberAll t (stmts.zipIdx.map fun (s, i) => s.effect h m receiver i)).1

theorem getElem?_methodBlocks (i : Nat) :
    (methodBlocks h m stmts receiver t).1[i]? = (blockStarts h stmts).toList[i]?.map fun first =>
      localBlock stmts (methodEffects h m stmts receiver t) (blockStarts h stmts).toList i first
        ((blockStarts h stmts).toList[i + 1]?.getD stmts.length - 1) := by
  simp only [methodBlocks, List.getElem?_map, List.getElem?_zipIdx, getElem?_segments,
    Option.map_map, Nat.zero_add]
  rfl

theorem length_methodBlocks :
    (methodBlocks h m stmts receiver t).1.length = (blockStarts h stmts).size := by
  simp [methodBlocks, OrderedSet.size]

theorem mem_blockStarts {x : Nat} : x ∈ blockStarts h stmts ↔ x < stmts.length ∧
    (x = 0 ∨ ∃ i s, stmts[i]? = some s ∧
      ((s.endsBlock h = true ∧ x = i + 1) ∨ x ∈ s.jumpTargets)) := by
  simp only [blockStarts, OrderedSet.mem_ofList, List.mem_filter, List.mem_cons, List.mem_flatMap,
    List.mem_append, Prod.exists, List.mem_zipIdx_iff_getElem?, decide_eq_true_eq]
  constructor
  · rintro ⟨h0 | ⟨s, i, hs, hx⟩, hlt⟩
    · exact ⟨hlt, Or.inl h0⟩
    · refine ⟨hlt, Or.inr ⟨i, s, hs, ?_⟩⟩
      rcases hx with hx | hx
      · split at hx
        · next he => exact Or.inl ⟨he, by simpa using hx⟩
        · simp at hx
      · exact Or.inr hx
  · rintro ⟨hlt, h0 | ⟨i, s, hs, hx⟩⟩
    · exact ⟨Or.inl h0, hlt⟩
    · refine ⟨Or.inr ⟨s, i, hs, ?_⟩, hlt⟩
      rcases hx with ⟨he, hx⟩ | hx
      · exact Or.inl (by simp [he, hx])
      · exact Or.inr hx

theorem methodBlocks_pos (hs : stmts ≠ []) : 0 < (methodBlocks h m stmts receiver t).1.length := by
  rw [length_methodBlocks]
  have h0 : 0 ∈ blockStarts h stmts :=
    mem_blockStarts.2 ⟨List.length_pos_iff.2 hs, Or.inl rfl⟩
  exact List.length_pos_of_mem h0

theorem localSuccs_inside {starts : List Nat} {i j : Nat} {last : Stmt}
    (hj : j ∈ localSuccs starts i last) : j < starts.length := by
  rw [localSuccs, OrderedSet.mem_ofList, List.mem_append] at hj
  rcases hj with hj | hj
  · obtain ⟨x, -, hx⟩ := List.mem_filterMap.1 hj
    exact (List.idxOf?_eq_some_iff.1 hx).1
  · split at hj
    · next hnext =>
      have := List.mem_singleton.1 hj
      omega
    · simp at hj

theorem succs_inside {b : LocalBlock} (hb : b ∈ (methodBlocks h m stmts receiver t).1) {j : Nat}
    (hj : j ∈ b.succs) : j < (methodBlocks h m stmts receiver t).1.length := by
  obtain ⟨i, hi⟩ := List.mem_iff_getElem?.1 hb
  rw [getElem?_methodBlocks, Option.map_eq_some_iff] at hi
  obtain ⟨first, -, rfl⟩ := hi
  rw [length_methodBlocks]
  generalize (blockStarts h stmts).toList[i + 1]?.getD stmts.length - 1 = last at hj
  change j ∈ stmts[last]?.elim ∅ (localSuccs _ i) at hj
  cases hs : stmts[last]? with
  | none => simp [hs] at hj
  | some s =>
    rw [hs] at hj
    exact localSuccs_inside hj

theorem blockStarts_sorted {i j a b : Nat} (ha : (blockStarts h stmts).toList[i]? = some a)
    (hb : (blockStarts h stmts).toList[j]? = some b) (hij : i < j) : a < b := by
  obtain ⟨hi, rfl⟩ := List.getElem?_eq_some_iff.1 ha
  obtain ⟨hj, rfl⟩ := List.getElem?_eq_some_iff.1 hb
  have := List.pairwise_iff_getElem.1 (blockStarts h stmts).ascending i j hi hj hij
  exact Nat.compare_eq_lt.1 this

theorem blockStarts_lt {i a : Nat} (ha : (blockStarts h stmts).toList[i]? = some a) :
    a < stmts.length :=
  (mem_blockStarts.1 (List.mem_of_getElem? ha)).1

variable {i pc : Nat} {lb : LocalBlock} {s : Stmt}

/-- A block as the segment from one start to the next. -/
theorem methodBlocks_eq_some (hlb : (methodBlocks h m stmts receiver t).1[i]? = some lb) :
    (blockStarts h stmts).toList[i]? = some lb.first ∧
      lb.last = (blockStarts h stmts).toList[i + 1]?.getD stmts.length - 1 ∧
      lb = localBlock stmts (methodEffects h m stmts receiver t) (blockStarts h stmts).toList i
        lb.first lb.last := by
  rw [getElem?_methodBlocks, Option.map_eq_some_iff] at hlb
  obtain ⟨first, hfirst, rfl⟩ := hlb
  exact ⟨hfirst, rfl, rfl⟩

theorem mark_eq_last_test (hlb : (methodBlocks h m stmts receiver t).1[i]? = some lb) :
    lb.mark = ((((methodEffects h m stmts receiver t).drop lb.first).take
      (lb.last + 1 - lb.first)).filterMap Effect.test?).getLast?.map
        fun test => ⟨test.1, test.2⟩ := by
  have heq := (methodBlocks_eq_some hlb).2.2
  rw [heq]
  rfl

theorem block_bounds (hlb : (methodBlocks h m stmts receiver t).1[i]? = some lb) :
    lb.first ≤ lb.last ∧ lb.last < stmts.length := by
  obtain ⟨hfirst, hlast, -⟩ := methodBlocks_eq_some hlb
  have hlt := blockStarts_lt hfirst
  cases hnext : (blockStarts h stmts).toList[i + 1]? with
  | none =>
    rw [hnext, Option.getD_none] at hlast
    omega
  | some next =>
    have := blockStarts_sorted hfirst hnext (Nat.lt_add_one i)
    have := blockStarts_lt hnext
    rw [hnext, Option.getD_some] at hlast
    omega

theorem start_not_inside (hlb : (methodBlocks h m stmts receiver t).1[i]? = some lb) {x : Nat}
    (hx : x ∈ blockStarts h stmts) (hlt : lb.first < x) : lb.last < x := by
  obtain ⟨hfirst, hlast, -⟩ := methodBlocks_eq_some hlb
  obtain ⟨k, hk⟩ := List.mem_iff_getElem?.1 hx
  have hik : i < k := by
    by_contra hge
    rcases Nat.lt_or_eq_of_le (Nat.le_of_not_lt hge) with hki | rfl
    · have := blockStarts_sorted hk hfirst hki
      omega
    · cases hk.symm.trans hfirst
      omega
  have hlen := (List.getElem?_eq_some_iff.1 hk).1
  have hnext := List.getElem?_eq_getElem (show i + 1 < _ from Nat.lt_of_le_of_lt hik hlen)
  have hle : (blockStarts h stmts).toList[i + 1] ≤ x := by
    rcases Nat.lt_or_eq_of_le (Nat.succ_le_of_lt hik) with hlt' | rfl
    · exact Nat.le_of_lt (blockStarts_sorted hnext hk hlt')
    · exact Nat.le_of_eq (Option.some.inj (hnext.symm.trans hk))
  have := blockStarts_sorted hfirst hnext (Nat.lt_add_one i)
  rw [hnext, Option.getD_some] at hlast
  omega

/-- Only the last statement of a block ends it. -/
theorem ends_last (hlb : (methodBlocks h m stmts receiver t).1[i]? = some lb)
    (hfirst : lb.first ≤ pc) (hlast : pc ≤ lb.last) (hs : stmts[pc]? = some s)
    (hends : s.endsBlock h = true) : pc = lb.last := by
  by_contra hne
  have hlt := (block_bounds hlb).2
  have hstart : pc + 1 ∈ blockStarts h stmts :=
    mem_blockStarts.2 ⟨by omega, Or.inr ⟨pc, s, hs, Or.inl ⟨hends, rfl⟩⟩⟩
  have := start_not_inside hlb hstart (by omega)
  omega

theorem first_of_zero (hlb : (methodBlocks h m stmts receiver t).1[0]? = some lb) :
    lb.first = 0 := by
  by_contra hne
  have hlt := block_bounds hlb
  have hstart : 0 ∈ blockStarts h stmts := mem_blockStarts.2 ⟨by omega, Or.inl rfl⟩
  obtain ⟨k, hk⟩ := List.mem_iff_getElem?.1 hstart
  obtain ⟨hfirst, -, -⟩ := methodBlocks_eq_some hlb
  rcases Nat.eq_zero_or_pos k with rfl | hpos
  · exact hne (Option.some.inj (hfirst.symm.trans hk))
  · have := blockStarts_sorted hfirst hk hpos
    omega

theorem mem_succs (hlb : (methodBlocks h m stmts receiver t).1[i]? = some lb)
    (hs : stmts[lb.last]? = some s) {j : Nat} : j ∈ lb.succs ↔
      (∃ x ∈ s.jumpTargets, (blockStarts h stmts).toList.idxOf? x = some j) ∨
        (s.fallsThrough = true ∧ i + 1 < (blockStarts h stmts).toList.length ∧ j = i + 1) := by
  obtain ⟨-, -, heq⟩ := methodBlocks_eq_some hlb
  have hsuccs : lb.succs = localSuccs (blockStarts h stmts).toList i s := by
    rw [heq]
    simp only [localBlock, hs, Option.elim_some]
  rw [hsuccs, localSuccs, OrderedSet.mem_ofList, List.mem_append, List.mem_filterMap]
  refine or_congr_right ?_
  split
  · next hnext => simp [hnext]
  · next hnext =>
    simp only [List.not_mem_nil, false_iff]
    exact fun hj => hnext ⟨hj.1, hj.2.1⟩

theorem first_of_next {lb' : LocalBlock} (hlb : (methodBlocks h m stmts receiver t).1[i]? = some lb)
    (hlb' : (methodBlocks h m stmts receiver t).1[i + 1]? = some lb') :
    lb'.first = lb.last + 1 := by
  obtain ⟨hfirst, hlast, -⟩ := methodBlocks_eq_some hlb
  obtain ⟨hfirst', -, -⟩ := methodBlocks_eq_some hlb'
  have := blockStarts_sorted hfirst hfirst' (Nat.lt_add_one i)
  rw [hfirst', Option.getD_some] at hlast
  omega

theorem next_start (hlb : (methodBlocks h m stmts receiver t).1[i]? = some lb)
    (hlt : lb.last + 1 < stmts.length) :
    ∃ lb', (methodBlocks h m stmts receiver t).1[i + 1]? = some lb' ∧ lb'.first = lb.last + 1 := by
  cases hlb' : (methodBlocks h m stmts receiver t).1[i + 1]? with
  | none =>
    obtain ⟨-, hlast, -⟩ := methodBlocks_eq_some hlb
    rw [getElem?_methodBlocks, Option.map_eq_none_iff] at hlb'
    rw [hlb', Option.getD_none] at hlast
    omega
  | some lb' => exact ⟨lb', rfl, first_of_next hlb hlb'⟩

theorem next_block (hlb : (methodBlocks h m stmts receiver t).1[i]? = some lb)
    (hs : stmts[lb.last]? = some s) (hfalls : s.fallsThrough = true)
    (hlt : lb.last + 1 < stmts.length) :
    i + 1 ∈ lb.succs ∧ ∃ lb', (methodBlocks h m stmts receiver t).1[i + 1]? = some lb' ∧
      lb'.first = lb.last + 1 := by
  obtain ⟨lb', hlb', hfirst⟩ := next_start hlb hlt
  have hlen := (List.getElem?_eq_some_iff.1 hlb').1
  rw [length_methodBlocks] at hlen
  exact ⟨(mem_succs hlb hs).2 (Or.inr ⟨hfalls, hlen, rfl⟩), lb', hlb', hfirst⟩

theorem idxOf?_blockStarts {j x : Nat} : (blockStarts h stmts).toList.idxOf? x = some j ↔
    ∃ lb', (methodBlocks h m stmts receiver t).1[j]? = some lb' ∧ lb'.first = x := by
  rw [getElem?_methodBlocks]
  constructor
  · intro hj
    obtain ⟨hjlt, hjx, -⟩ := List.idxOf?_eq_some_iff.1 hj
    rw [List.getElem?_eq_getElem hjlt]
    exact ⟨_, rfl, by simpa [localBlock] using hjx⟩
  · rintro ⟨lb', hlb', rfl⟩
    obtain ⟨first, hfirst, rfl⟩ := Option.map_eq_some_iff.1 hlb'
    obtain ⟨hjlt, rfl⟩ := List.getElem?_eq_some_iff.1 hfirst
    refine List.idxOf?_eq_some_iff.2 ⟨hjlt, by simp [localBlock], fun k hk heq => ?_⟩
    have := blockStarts_sorted (List.getElem?_eq_getElem (Nat.lt_trans hk hjlt)) hfirst hk
    have : (blockStarts h stmts).toList[k] = (blockStarts h stmts).toList[j] := by
      simpa [localBlock] using heq
    omega

/-- A jump target within the method is the first statement of a successor. -/
theorem jump_block (hlb : (methodBlocks h m stmts receiver t).1[i]? = some lb)
    (hs : stmts[lb.last]? = some s) {x : Nat} (hx : x ∈ s.jumpTargets) (hlt : x < stmts.length) :
    ∃ j ∈ lb.succs, ∃ lb', (methodBlocks h m stmts receiver t).1[j]? = some lb' ∧
      lb'.first = x := by
  have hstart : x ∈ (blockStarts h stmts).toList :=
    mem_blockStarts.2 ⟨hlt, Or.inr ⟨lb.last, s, hs, Or.inr hx⟩⟩
  obtain ⟨j, hj⟩ := Option.isSome_iff_exists.1 (List.isSome_idxOf?.2 hstart)
  exact ⟨j, (mem_succs hlb hs).2 (Or.inl ⟨x, hx, hj⟩), idxOf?_blockStarts.1 hj⟩

theorem succs_of_return (hlb : (methodBlocks h m stmts receiver t).1[i]? = some lb)
    {value : Option Operand} (hs : stmts[lb.last]? = some (.ret value)) : lb.succs.toList = [] := by
  refine List.eq_nil_iff_forall_not_mem.2 fun j hj => ?_
  rcases (mem_succs hlb hs).1 hj with ⟨x, hx, -⟩ | ⟨hfalls, -⟩
  · cases hx
  · cases hfalls

theorem getElem?_methodEffects (ht : (methodBlocks h m stmts receiver t).2 = t) (pc : Nat) :
    (methodEffects h m stmts receiver t)[pc]? =
      stmts[pc]?.map fun s => ((s.effect h m receiver pc).number t).1 := by
  rw [methodEffects, (Effect.numberAll_fixed ht).1]
  simp only [List.getElem?_map, List.getElem?_zipIdx, Option.map_map, Nat.zero_add]
  rfl

theorem effect_denotes (ht : (methodBlocks h m stmts receiver t).2 = t)
    (hs : stmts[pc]? = some s) :
    ((s.effect h m receiver pc).number t).1.Denotes t (s.effect h m receiver pc) := by
  refine Effect.number_fixed ((Effect.numberAll_fixed ht).2 _ ?_)
  exact List.mem_map.2 ⟨(s, pc), List.mem_zipIdx_iff_getElem?.2 hs, rfl⟩

def Effect.copies (e : Effect Nat) : List Copy :=
  e.copy?.toList.map fun (target, source) => ⟨target, source, .statement⟩

def copiesFrom (effects : List (Effect Nat)) (first n : Nat) : List Copy :=
  (((effects.drop first).take n).filterMap Effect.copy?).map fun (target, source) =>
    ⟨target, source, .statement⟩

@[simp] theorem copiesFrom_zero (effects : List (Effect Nat)) (first : Nat) :
    copiesFrom effects first 0 = [] := rfl

theorem copiesFrom_succ {effects : List (Effect Nat)} {first n : Nat} {e : Effect Nat}
    (he : effects[first + n]? = some e) :
    copiesFrom effects first (n + 1) = copiesFrom effects first n ++ e.copies := by
  rw [copiesFrom, List.take_add_one, List.getElem?_drop, he, Option.toList_some,
    List.filterMap_append, List.map_append]
  cases hc : e.copy? <;> simp [copiesFrom, Effect.copies, hc]

theorem block_copies (hlb : (methodBlocks h m stmts receiver t).1[i]? = some lb) :
    lb.copies = copiesFrom (methodEffects h m stmts receiver t) lb.first
      (lb.last + 1 - lb.first) := by
  have heq := (methodBlocks_eq_some hlb).2.2
  rw [heq]
  rfl

theorem own_effects (ht : (methodBlocks h m stmts receiver t).2 = t)
    (hlb : (methodBlocks h m stmts receiver t).1[i]? = some lb) (hs : stmts[lb.last]? = some s) :
    ((methodEffects h m stmts receiver t).drop lb.first).take (lb.last + 1 - lb.first) =
      ((methodEffects h m stmts receiver t).drop lb.first).take (lb.last - lb.first) ++
        [((s.effect h m receiver lb.last).number t).1] := by
  have hbounds := block_bounds hlb
  have hlen : lb.last + 1 - lb.first = lb.last - lb.first + 1 := by omega
  have hlast : lb.first + (lb.last - lb.first) = lb.last := by omega
  rw [hlen, List.take_add_one, List.getElem?_drop, hlast, getElem?_methodEffects ht, hs]
  rfl

theorem number_call? (e : Effect Pointer) : (e.number t).1.call? = e.call? := by
  cases e <;> rfl

theorem effect_call? {c : Call} :
    (s.effect h m receiver pc).call? = some c ↔ s = .call c ∧ h c = none := by
  cases s with
  | call c' =>
    cases hc : h c' with
    | none =>
      simp only [Stmt.effect, hc, Effect.call?, Option.some.injEq, Stmt.call.injEq]
      constructor
      · rintro rfl
        exact ⟨rfl, hc⟩
      · exact And.left
    | some hook =>
      have hne : ¬ (c' = c ∧ h c = none) := by
        rintro ⟨rfl, hnone⟩
        rw [hnone] at hc
        cases hc
      simp only [Stmt.call.injEq, hne, iff_false]
      cases hook with
      | alloc label => simp [Stmt.effect, hc, Effect.call?]
      | test id traced => cases id <;> cases traced <;> simp [Stmt.effect, hc, Effect.call?]
  | copy x operand => cases operand <;> simp [Stmt.effect, Effect.call?]
  | store base field operand => cases operand <;> simp [Stmt.effect, Effect.call?]
  | ret value =>
    rcases value with _ | _ | _ <;> cases receiver <;> simp [Stmt.effect, Effect.call?]
  | _ => simp [Stmt.effect, Effect.call?]

theorem endsBlock_of_call {c : Call} (hc : h c = none) : (Stmt.call c).endsBlock h = true := by
  simp [Stmt.endsBlock, Stmt.isAllocHook, hc]

theorem inner_effect (ht : (methodBlocks h m stmts receiver t).2 = t) {first last : Nat}
    {e : Effect Nat}
    (he : e ∈ ((methodEffects h m stmts receiver t).drop first).take (last - first)) :
    ∃ x s, first ≤ x ∧ x < last ∧ stmts[x]? = some s ∧
      e = ((s.effect h m receiver x).number t).1 := by
  obtain ⟨k, hk⟩ := List.mem_iff_getElem?.1 he
  have hlt : k < last - first := by
    have := (List.getElem?_eq_some_iff.1 hk).1
    rw [List.length_take] at this
    omega
  rw [List.getElem?_take_of_lt hlt, List.getElem?_drop, getElem?_methodEffects ht,
    Option.map_eq_some_iff] at hk
  obtain ⟨s, hs, rfl⟩ := hk
  exact ⟨first + k, s, Nat.le_add_right _ _, by omega, hs, rfl⟩

/-- A call before the last statement would have ended the block there. -/
theorem no_inner_call (ht : (methodBlocks h m stmts receiver t).2 = t)
    (hlb : (methodBlocks h m stmts receiver t).1[i]? = some lb) {e : Effect Nat}
    (he : e ∈ ((methodEffects h m stmts receiver t).drop lb.first).take (lb.last - lb.first)) :
    e.call? = none := by
  obtain ⟨x, s, hfirst, hlast, hs, rfl⟩ := inner_effect ht he
  rw [number_call?]
  cases hc : (s.effect h m receiver x).call? with
  | none => rfl
  | some c =>
    obtain ⟨rfl, hnone⟩ := effect_call?.1 hc
    have := ends_last hlb hfirst (Nat.le_of_lt hlast) hs (endsBlock_of_call hnone)
    omega

/-- The call of a block is its last statement, unless that is a hook or no call. -/
theorem block_call_eq (ht : (methodBlocks h m stmts receiver t).2 = t)
    (hlb : (methodBlocks h m stmts receiver t).1[i]? = some lb) (hs : stmts[lb.last]? = some s) :
    lb.call = (s.effect h m receiver lb.last).call?.map (lb.last, ·) := by
  have hcall : lb.call = ((((methodEffects h m stmts receiver t).drop lb.first).take
      (lb.last + 1 - lb.first)).zipIdx lb.first |>.filterMap fun ej =>
        ej.1.call?.map (ej.2, ·)).getLast? := by
    have heq := (methodBlocks_eq_some hlb).2.2
    rw [heq]
    rfl
  have hinit : ((((methodEffects h m stmts receiver t).drop lb.first).take
      (lb.last - lb.first)).zipIdx lb.first).filterMap
        (fun ej => ej.1.call?.map (ej.2, ·)) = [] := by
    refine List.filterMap_eq_nil_iff.2 fun ej hej => ?_
    obtain ⟨e, j⟩ := ej
    have he := (List.mem_zipIdx hej).2.2
    simp only [no_inner_call ht hlb (he ▸ List.getElem_mem _), Option.map_none]
  have hlast : lb.first + (((methodEffects h m stmts receiver t).drop lb.first).take
      (lb.last - lb.first)).length = lb.last := by
    have hbounds := block_bounds hlb
    have hlength := congrArg List.length (own_effects ht hlb hs)
    rw [List.length_append, List.length_take, List.length_singleton] at hlength
    rw [List.length_take] at hlength ⊢
    omega
  rw [hcall, own_effects ht hlb hs, List.zipIdx_append, List.filterMap_append, hinit,
    List.nil_append, hlast]
  cases hc : (s.effect h m receiver lb.last).call? <;> simp [number_call?, hc]

theorem block_call (ht : (methodBlocks h m stmts receiver t).2 = t)
    (hlb : (methodBlocks h m stmts receiver t).1[i]? = some lb) (hs : stmts[lb.last]? = some s) :
    lb.call.map (·.2) = (s.effect h m receiver lb.last).call? := by
  rw [block_call_eq ht hlb hs]
  cases (s.effect h m receiver lb.last).call? <;> rfl

/-- A block that a test hook ends is marked with the hook's variable. -/
theorem block_mark (ht : (methodBlocks h m stmts receiver t).2 = t)
    (hlb : (methodBlocks h m stmts receiver t).1[i]? = some lb) {c : Call} {id : Int} {v : Slot}
    (hs : stmts[lb.last]? = some (.call c)) (hc : h c = some (.test (some id) (some v))) :
    ∃ n, lb.mark = some ⟨id, n⟩ ∧ t.get? n = some (.var ⟨m, v⟩) := by
  have heffect : (Stmt.call c).effect h m receiver lb.last = .test id (.var ⟨m, v⟩) := by
    simp only [Stmt.effect, hc]
  have hdenotes := effect_denotes ht hs
  rw [mark_eq_last_test hlb, own_effects ht hlb hs, List.filterMap_append, heffect]
  rw [heffect] at hdenotes
  exact ⟨_, by simp [Effect.number, Effect.test?]; rfl, hdenotes.2⟩

end

end PointsTo
