import Mathlib.Data.Set.Card
import PointsTo.Proofs.Inline.Realization
import PointsTo.Proofs.Inline.Stack

/-! What the statistics count. They are bumped while calls still wait, but each of them can be read
off the finished graph, point by point: an instance has one first block, a spliced call has one
block before its callee, and a call that is not spliced ends a block of its caller. -/
namespace PointsTo

namespace InlineStats

variable (xs : List InlineStats)

theorem instances_sum : xs.sum.instances = (xs.map (·.instances)).sum :=
  map_list_sum (⟨⟨instances, rfl⟩, fun _ _ => rfl⟩ : InlineStats →+ Nat) xs

theorem spliced_sum : xs.sum.spliced = (xs.map (·.spliced)).sum :=
  map_list_sum (⟨⟨spliced, rfl⟩, fun _ _ => rfl⟩ : InlineStats →+ Nat) xs

theorem truncated_sum : xs.sum.truncated = (xs.map (·.truncated)).sum :=
  map_list_sum (⟨⟨truncated, rfl⟩, fun _ _ => rfl⟩ : InlineStats →+ Nat) xs

theorem unresolved_sum : xs.sum.unresolved = (xs.map (·.unresolved)).sum :=
  map_list_sum (⟨⟨unresolved, rfl⟩, fun _ _ => rfl⟩ : InlineStats →+ Nat) xs

variable {xs} {s : InlineStats}

theorem le_maxDepth_sum (hs : s ∈ xs) : s.maxDepth ≤ xs.sum.maxDepth := by
  induction xs with
  | nil => cases hs
  | cons s' xs ih =>
    rw [List.sum_cons, add_eq]
    rcases List.mem_cons.1 hs with rfl | hs
    · exact Nat.le_max_left _ _
    · exact Nat.le_trans (ih hs) (Nat.le_max_right _ _)

theorem exists_maxDepth_sum (h : xs ≠ []) : ∃ s ∈ xs, s.maxDepth = xs.sum.maxDepth := by
  induction xs with
  | nil => exact absurd rfl h
  | cons s xs ih =>
    rw [List.sum_cons, add_eq]
    rcases Nat.le_total xs.sum.maxDepth s.maxDepth with hle | hle
    · exact ⟨s, List.mem_cons_self, (Nat.max_eq_left hle).symm⟩
    · by_cases hxs : xs = []
      · subst hxs
        exact ⟨s, List.mem_cons_self, (Nat.max_eq_left (Nat.zero_le _)).symm⟩
      · obtain ⟨s', hs', heq⟩ := ih hxs
        exact ⟨s', List.mem_cons_of_mem s hs', heq.trans (Nat.max_eq_right hle).symm⟩

end InlineStats

section Counting

variable {α : Type} {P : α → Bool} {xs : List α}

theorem sum_toNat_eq_countP {f : α → Nat} (h : ∀ x, f x = (P x).toNat) (xs : List α) :
    (xs.map f).sum = xs.countP P := by
  induction xs with
  | nil => rfl
  | cons x xs ih =>
    rw [List.map_cons, List.sum_cons, List.countP_cons, ih, h, Nat.add_comm]
    cases P x <;> rfl

theorem map_getElem?_range (xs : List α) : (List.range xs.length).map (xs[·]?) = xs.map some := by
  refine List.ext_getElem (by simp) fun b hb hb' => ?_
  rw [List.getElem_map, List.getElem_map, List.getElem_range]
  exact List.getElem?_eq_getElem (by simpa using hb)

theorem countP_range_getElem? (P : α → Bool) (xs : List α) :
    (List.range xs.length).countP (fun b => xs[b]?.any P) = xs.countP P := by
  have hcount := congrArg (List.countP fun x => x.any P) (map_getElem?_range xs)
  rwa [List.countP_map, List.countP_map] at hcount

/-- The places of a list at which something holds are as many as the elements of which it holds. -/
theorem ncard_eq_countP {Q : Nat → Prop} (hinside : ∀ b, Q b → b < xs.length)
    (h : ∀ b x, xs[b]? = some x → (Q b ↔ P x = true)) : {b | Q b}.ncard = xs.countP P := by
  have hplaces :
      {b | Q b} = ((List.range xs.length).filter fun b => xs[b]?.any P).toFinset := by
    ext b
    simp only [Set.mem_ofPred_eq, List.coe_toFinset, List.mem_filter, List.mem_range]
    constructor
    · intro hb
      have hget := List.getElem?_eq_getElem (hinside b hb)
      exact ⟨hinside b hb, by simpa [hget] using (h b _ hget).1 hb⟩
    · rintro ⟨hlt, hb⟩
      have hget := List.getElem?_eq_getElem hlt
      exact (h b _ hget).2 (by simpa [hget] using hb)
  rw [hplaces, Set.ncard_coe_finset, List.toFinset_card_of_nodup (List.nodup_range.filter _),
    ← List.countP_eq_length_filter, countP_range_getElem?]

end Counting

namespace Point

def isFirst : Point → Bool
  | block a _ => a.block = 0
  | _ => false

def isEnter : Point → Bool
  | enter .. => true
  | _ => false

def isLeave : Point → Bool
  | leave .. => true
  | _ => false

def instanceDepth : Point → Nat
  | block _ callers => callers.length
  | _ => 0

end Point

namespace Inliner

section Census

variable (inl : Inliner)

def callOf : Point → Option Call
  | .block a _ => (inl.namedAt a).bind (·.call)
  | _ => none

def isTruncated (p : Point) : Bool :=
  ((inl.callOf p).any fun c => (inl.callee? c).isSome) && inl.maxDepth ≤ p.callers.length

def isFollowed (p : Point) : Bool :=
  ((inl.callOf p).any fun c => (inl.callee? c).isSome) && p.callers.length < inl.maxDepth

def isUnresolved (p : Point) : Bool := (inl.callOf p).any fun c => (inl.callee? c).isNone

def census (p : Point) : InlineStats where
  instances := p.isFirst.toNat
  spliced := p.isEnter.toNat
  truncated := (inl.isTruncated p).toNat
  unresolved := (inl.isUnresolved p).toNat
  maxDepth := p.instanceDepth

/-- Each counter counts the points of one kind. -/
theorem census_counts (pts : List Point) :
    (pts.map inl.census).sum.instances = pts.countP Point.isFirst ∧
      (pts.map inl.census).sum.spliced = pts.countP Point.isEnter ∧
      (pts.map inl.census).sum.truncated = pts.countP inl.isTruncated ∧
      (pts.map inl.census).sum.unresolved = pts.countP inl.isUnresolved := by
  rw [InlineStats.instances_sum, InlineStats.spliced_sum, InlineStats.truncated_sum,
    InlineStats.unresolved_sum]
  simp only [List.map_map]
  exact ⟨sum_toNat_eq_countP (fun _ => rfl) pts, sum_toNat_eq_countP (fun _ => rfl) pts,
    sum_toNat_eq_countP (fun _ => rfl) pts, sum_toNat_eq_countP (fun _ => rfl) pts⟩

end Census

variable {inl : Inliner} {m : MethodId} {receiver : Option Var} {callers : List Activation}
  {p : Point} {entry : MethodId} {i : Inlined}

theorem missed_toList (depth : Nat) (call? : Option Call) : inl.missed depth call?.toList = ⟨0, 0,
    ((call?.any fun c => (inl.callee? c).isSome) && inl.maxDepth ≤ depth).toNat,
    (call?.any fun c => (inl.callee? c).isNone).toNat, 0⟩ := by
  unfold missed deepCalls unknownCalls
  cases call? with
  | none => simp
  | some c =>
    rcases Nat.lt_or_ge depth inl.maxDepth with hd | hd
    · cases hc : inl.callee? c <;> simp [hd, hc, Nat.not_le.2 hd]
    · cases hc : inl.callee? c <;> simp [hd, hc, Nat.not_lt.2 hd]

theorem census_block (a : Activation) (callers : List Activation) :
    inl.census (.block a callers) = ⟨(decide (a.block = 0)).toNat, 0, 0, 0, callers.length⟩ +
      inl.missed callers.length ((inl.namedAt a).bind (·.call)).toList := by
  rw [missed_toList, InlineStats.add_eq]
  simp only [Nat.zero_add, Nat.add_zero, Nat.max_zero]
  rfl

theorem callOf_block {a : Activation} {c : Call} :
    inl.callOf (.block a callers) = some c ↔ inl.CallsAt a.method a.block c := by
  have hfixed := congrArg Prod.snd
    (methodBlocks_fixed inl.hooks a.method (inl.stmtsOf a.method) a.receiver ∅)
  have hnumbered : inl.Numbered _ (.block a callers) := hfixed
  rw [← callAt_eq_some hnumbered, callAt_eq hfixed]
  rfl

theorem missed_nil (depth : Nat) : inl.missed depth [] = 0 := by
  unfold missed deepCalls
  rw [List.filter_nil, ite_self]
  rfl

theorem sum_missed (depth : Nat) (blocks : List NamedBlock) :
    (blocks.map fun b => inl.missed depth b.call.toList).sum =
      inl.missed depth (blocks.filterMap (·.call)) := by
  induction blocks with
  | nil => exact (missed_nil depth).symm
  | cons b blocks ih =>
    have hcall : (b :: blocks).filterMap (·.call) =
        b.call.toList ++ blocks.filterMap (·.call) := by
      rw [List.filterMap_cons]
      cases b.call <;> rfl
    rw [List.map_cons, List.sum_cons, ih, hcall, missed_append]

theorem sum_first (depth n : Nat) : ((List.range (n + 1)).map fun i =>
    (⟨(decide (i = 0)).toNat, 0, 0, 0, depth⟩ : InlineStats)).sum = ⟨1, 0, 0, 0, depth⟩ := by
  induction n with
  | zero => simp [InlineStats.add_eq, InlineStats.zero_eq]
  | succ n ih =>
    rw [List.range_succ, List.map_append, List.sum_append, ih]
    simp [InlineStats.add_eq, InlineStats.zero_eq]

theorem sum_census_alone (hs : inl.stmtsOf m ≠ []) :
    ((inl.alone m receiver callers).places.map inl.census).sum =
      (inl.alone m receiver callers).stats := by
  have hpos : 0 < (inl.namedBlocksOf m receiver).length := by
    rw [← length_blocksOf (t := ∅)]
    exact methodBlocks_pos hs
  obtain ⟨n, hn⟩ := Nat.exists_eq_add_one_of_ne_zero (Nat.pos_iff_ne_zero.1 hpos)
  have hmissed := congrArg (List.map fun b : Option NamedBlock =>
    inl.missed callers.length (b.bind (·.call)).toList)
      (map_getElem?_range (inl.namedBlocksOf m receiver))
  rw [List.map_map, List.map_map] at hmissed
  have hsum := List.sum_map_add (l := List.range (inl.namedBlocksOf m receiver).length)
    (f := fun i => (⟨(decide (i = 0)).toNat, 0, 0, 0, callers.length⟩ : InlineStats))
    (g := fun i => inl.missed callers.length
      ((inl.namedBlocksOf m receiver)[i]?.bind (·.call)).toList)
  rw [places_alone, instancePoints, List.map_map]
  simp only [Function.comp_def, census_block]
  refine hsum.trans ?_
  rw [hn, sum_first, ← hn]
  refine (congrArg (_ + ·) ((congrArg List.sum hmissed).trans (sum_missed _ _))).trans ?_
  simp [missed, alone, callsOf, InlineStats.add_eq]

theorem followed_eq_some {a : Activation} {c : Call} {callee : MethodId} :
    inl.followed a callers = some (c, callee) ↔ callers.length < inl.maxDepth ∧
      (inl.namedAt a).bind (·.call) = some c ∧ inl.callee? c = some callee := by
  unfold followed resolved
  by_cases hd : callers.length < inl.maxDepth
  · rw [if_pos hd, and_iff_right hd]
    simp only [Option.bind_eq_bind, Option.bind_eq_some_iff, Option.pure_def, Option.some.injEq,
      Prod.mk.injEq]
    constructor
    · rintro ⟨b, hb, c', hc, callee', hcallee, rfl, rfl⟩
      exact ⟨⟨b, hb, hc⟩, hcallee⟩
    · rintro ⟨⟨b, hb, hc⟩, hcallee⟩
      exact ⟨b, hb, c, hc, callee, hcallee, rfl, rfl⟩
  · simp [hd]

theorem sum_census_join {fs : List Fragment}
    (h : ∀ f ∈ fs, f.stats = (f.places.map inl.census).sum) :
    (Fragment.join fs).stats = ((Fragment.join fs).places.map inl.census).sum := by
  induction fs with
  | nil => rfl
  | cons f fs ih =>
    obtain ⟨hf, hfs⟩ := List.forall_mem_cons.1 h
    change (f ++ Fragment.join fs).stats = ((f ++ Fragment.join fs).places.map inl.census).sum
    rw [Fragment.stats_append, Fragment.places_append, List.map_append, List.sum_append, hf, ih hfs]

theorem sum_census_around {a : Activation} {c : Call} {callee : MethodId} {f : Fragment}
    (h : f.stats = (f.places.map inl.census).sum) :
    (inl.around a callers c callee f).stats =
      ((inl.around a callers c callee f).places.map inl.census).sum := by
  rw [places_around, List.map_cons, List.map_cons, List.sum_cons, List.sum_cons, ← h]
  change f.stats + ⟨0, 1, 0, 0, 0⟩ = ⟨0, 1, 0, 0, 0⟩ + (0 + f.stats)
  rw [zero_add, add_comm]

/-- The statistics of a graph are the sum over its points. -/
theorem stats_graphOf (hs : inl.stmtsOf m ≠ []) : (inl.graphOf m receiver callers).stats =
    ((inl.graphOf m receiver callers).places.map inl.census).sum := by
  induction m, receiver, callers using @graphOf_induction inl with
  | step m receiver callers ih =>
    have hparts : ∀ f ∈ (inl.followedCalls m receiver callers).map (inl.part callers),
        f.stats = (f.places.map inl.census).sum := by
      intro f hf
      obtain ⟨⟨a, c, callee⟩, hcall, rfl⟩ := List.mem_map.1 hf
      obtain ⟨ha, hfollowed⟩ := mem_followedCalls.1 hcall
      obtain ⟨rfl, -⟩ := mem_activations.1 ha
      exact sum_census_around (ih a c callee hcall
        (stmts_of_callee (followed_eq_some.1 hfollowed).2.2))
    rw [graphOf_eq, Fragment.stats_append, Fragment.places_append, List.map_append,
      List.sum_append, sum_census_alone hs, sum_census_join hparts]

/-- No point lies deeper than the limit. -/
theorem sites_le_of_mem_places (hc : callers.length ≤ inl.maxDepth)
    (hp : p ∈ (inl.graphOf m receiver callers).places) : p.sites.length ≤ inl.maxDepth := by
  induction m, receiver, callers using @graphOf_induction inl with
  | step m receiver callers ih =>
    rcases mem_places_graphOf.1 hp with ⟨a, -, rfl⟩ | ⟨a, c, callee, hcall, hp⟩
    · exact hc
    · have hbelow : (a :: callers).length ≤ inl.maxDepth :=
        (followed_eq_some.1 (mem_followedCalls.1 hcall).2).1
      rcases hp with rfl | rfl | hp
      · exact hbelow
      · exact hbelow
      · exact ih a c callee hcall hbelow hp

theorem instances_graphOf : (inl.graphOf m receiver callers).stats.instances = 1 +
    ((inl.followedCalls m receiver callers).map fun f =>
      (inl.graphOf f.2.2 (receiverOf m f.2.1) (f.1 :: callers)).stats.instances).sum := by
  rw [graphOf_eq, Fragment.stats_append, Fragment.stats_join, InlineStats.add_eq]
  change 1 + _ = _
  rw [InlineStats.instances_sum, List.map_map, List.map_map]
  congr 2
  refine List.map_congr_left fun f hf => ?_
  obtain ⟨rfl, -⟩ := mem_activations.1 (mem_followedCalls.1 hf).1
  rfl

theorem countP_graphOf (P : Point → Bool) : (inl.graphOf m receiver callers).places.countP P =
    (inl.alone m receiver callers).places.countP P +
      ((inl.followedCalls m receiver callers).map fun f => (Point.enter f.1 callers ::
        .leave f.1 callers ::
          (inl.graphOf f.2.2 (receiverOf m f.2.1) (f.1 :: callers)).places).countP P).sum := by
  rw [graphOf_eq, Fragment.places_append, List.countP_append, Fragment.places_join,
    List.flatMap_map, List.countP_flatMap]
  congr 2
  refine List.map_congr_left fun f hf => ?_
  obtain ⟨rfl, -⟩ := mem_activations.1 (mem_followedCalls.1 hf).1
  rfl

theorem countP_alone {P : Point → Bool} (hP : ∀ a cs, P (.block a cs) = false) :
    (inl.alone m receiver callers).places.countP P = 0 := by
  refine List.countP_eq_zero.2 fun p hp => ?_
  rw [places_alone] at hp
  obtain ⟨x, -, rfl⟩ := mem_instancePoints.1 hp
  simp [hP]

theorem countP_leave : (inl.graphOf m receiver callers).places.countP Point.isLeave =
    (inl.graphOf m receiver callers).places.countP Point.isEnter := by
  induction m, receiver, callers using @graphOf_induction inl with
  | step m receiver callers ih =>
    rw [countP_graphOf, countP_graphOf, countP_alone fun _ _ => rfl, countP_alone fun _ _ => rfl]
    congr 2
    refine List.map_congr_left fun f hf => ?_
    simp only [List.countP_cons, ih f.1 f.2.1 f.2.2 hf]
    rfl

theorem isFollowed_block (a : Activation) :
    inl.isFollowed (.block a callers) = (inl.followed a callers).isSome := by
  rw [Bool.eq_iff_iff, Option.isSome_iff_exists]
  simp only [isFollowed, callOf, Point.callers, Bool.and_eq_true, Option.any_eq_true,
    Option.isSome_iff_exists, Prod.exists, followed_eq_some]
  constructor
  · rintro ⟨⟨c, hc, callee, hcallee⟩, hd⟩
    exact ⟨c, callee, of_decide_eq_true hd, hc, hcallee⟩
  · rintro ⟨c, callee, hd, hc, hcallee⟩
    exact ⟨⟨c, hc, callee, hcallee⟩, decide_eq_true hd⟩

/-- As many blocks end with a call that is followed as stand before callees. -/
theorem countP_followed : (inl.graphOf m receiver callers).places.countP inl.isFollowed =
    (inl.graphOf m receiver callers).places.countP Point.isEnter := by
  induction m, receiver, callers using @graphOf_induction inl with
  | step m receiver callers ih =>
    have halone : (inl.alone m receiver callers).places.countP inl.isFollowed =
        ((inl.followedCalls m receiver callers).map fun _ => 1).sum := by
      rw [places_alone, instancePoints, List.countP_map, List.map_const', List.sum_replicate,
        followedCalls, List.length_filterMap_eq_countP, activations, List.countP_map]
      simp only [Function.comp_def, isFollowed_block, Option.isSome_map, nsmul_eq_mul, Nat.cast_id,
        mul_one]
    rw [countP_graphOf, halone, countP_graphOf, countP_alone fun _ _ => rfl, Nat.zero_add,
      ← List.sum_map_add]
    congr 1
    refine List.map_congr_left fun f hf => ?_
    simp only [List.countP_cons, ih f.1 f.2.1 f.2.2 hf]
    exact Nat.add_comm _ _

/-- Every instance but that of the entry takes the place of a call. -/
theorem instances_eq_spliced : (inl.graphOf m receiver callers).stats.instances =
    (inl.graphOf m receiver callers).stats.spliced + 1 := by
  induction m, receiver, callers using @graphOf_induction inl with
  | step m receiver callers ih =>
    have hspliced : (inl.graphOf m receiver callers).stats.spliced =
        ((inl.followedCalls m receiver callers).map fun f =>
          (inl.graphOf f.2.2 (receiverOf m f.2.1) (f.1 :: callers)).stats.spliced + 1).sum := by
      rw [graphOf_eq, Fragment.stats_append, Fragment.stats_join, InlineStats.add_eq]
      change 0 + _ = _
      rw [InlineStats.spliced_sum, List.map_map, List.map_map, Nat.zero_add]
      congr 1
      refine List.map_congr_left fun f hf => ?_
      obtain ⟨rfl, -⟩ := mem_activations.1 (mem_followedCalls.1 hf).1
      rfl
    rw [instances_graphOf, hspliced, Nat.add_comm]
    congr 2
    exact List.map_congr_left fun f hf => ih f.1 f.2.1 f.2.2 hf

theorem depth_of_blockFor {t : PointerTable} {id : Nat} {b : Block}
    (h : inl.blockFor t id p = some b) : b.kind.depth = p.sites.length := by
  cases p <;> · obtain ⟨x, -, rfl⟩ := Option.map_eq_some_iff.1 h; rfl

/-- The points for which the blocks of an inlined program stand, and what is counted. -/
structure CountsPoints (inl : Inliner) (entry : MethodId) (i : Inlined)
    (pts : List Point) : Prop where
  wellFormed : i.draft.WellFormed
  size : pts.length = i.draft.size
  distinct : pts.Nodup
  start : pts[0]? = some (startPoint entry)
  content : ∀ b p, pts[b]? = some p → i.draft.blocks[b]? = inl.blockFor i.table b p
  numbered : ∀ p ∈ pts, inl.Numbered i.table p
  leads : ∀ b p, pts[b]? = some p → Leads i.draft pts b (inl.next i.table p)
  inside : ∀ b, ∀ c ∈ i.draft.successors b, c < i.draft.size
  simple : i.draft.Simple
  depth : ∀ p ∈ pts, p.sites.length ≤ inl.maxDepth
  returns : pts.countP Point.isLeave = pts.countP Point.isEnter
  followed : pts.countP inl.isFollowed = pts.countP Point.isEnter
  instances : i.stats.instances = i.stats.spliced + 1
  stats : i.stats = (pts.map inl.census).sum

theorem run_countsPoints (h : inl.run entry = .ok (some i)) :
    ∃ pts, inl.CountsPoints entry i pts := by
  obtain ⟨hs, hbuilds⟩ := run_builds h
  obtain ⟨st, pts, hl, hb, hstart, -, hdraft, -, -, hstats⟩ := hbuilds.filled hs
  have hplaces := hb.perm_places
  have htotal : i.stats = (inl.graphOf entry none []).stats := by
    rw [hstats, hb.stats]
    exact (add_zero _).symm
  refine ⟨pts, ?_⟩
  constructor
  case wellFormed => exact hdraft ▸ hl.wellFormed
  case size => exact hdraft ▸ hl.size
  case distinct => exact hl.distinct
  case start => exact hstart
  case content => exact hdraft ▸ hl.content
  case numbered => exact hl.numbered
  case leads => exact fun b p hb => hdraft ▸ hl.leads b p hb List.not_mem_nil
  case inside => exact hdraft ▸ hl.inside
  case simple => exact hbuilds.simple
  case depth =>
    intro p hp
    exact sites_le_of_mem_places (Nat.zero_le _) (hplaces.mem_iff.1 hp)
  case returns => rw [hplaces.countP_eq, hplaces.countP_eq, countP_leave]
  case followed => rw [hplaces.countP_eq, hplaces.countP_eq, countP_followed]
  case instances => rw [htotal, instances_eq_spliced]
  case stats => rw [(hplaces.map inl.census).sum_eq, ← stats_graphOf hs, htotal]

end Inliner

def Inlined.kindAt (i : Inlined) (b : Nat) : Option BlockKind := i.draft.blocks[b]?.map (·.kind)

namespace Inliner

section CountsPoints

variable {inl : Inliner} {entry : MethodId} {i : Inlined} {pts : List Point} {b : Nat} {p : Point}
  {m : MethodId} {first last depth : Nat}

theorem CountsPoints.block_at (h : inl.CountsPoints entry i pts) (hp : pts[b]? = some p) :
    ∃ block, i.draft.blocks[b]? = some block ∧ inl.blockFor i.table b p = some block := by
  have hlt : b < i.draft.blocks.size := Nat.lt_of_lt_of_eq (List.getElem?_eq_some_iff.1 hp).1 h.size
  have hget := Array.getElem?_eq_getElem hlt
  exact ⟨_, hget, (h.content b p hp).symm.trans hget⟩

theorem CountsPoints.point_at (h : inl.CountsPoints entry i pts) {block : Block}
    (hb : i.draft.blocks[b]? = some block) :
    ∃ p, pts[b]? = some p ∧ inl.blockFor i.table b p = some block := by
  have hlt : b < pts.length := h.size ▸ (Array.getElem?_eq_some_iff.1 hb).1
  have hp := List.getElem?_eq_getElem hlt
  exact ⟨_, hp, (h.content b _ hp).symm.trans hb⟩

theorem CountsPoints.kindAt_eq_some (h : inl.CountsPoints entry i pts) {kind : BlockKind} :
    i.kindAt b = some kind ↔
      ∃ p, pts[b]? = some p ∧ (inl.blockFor i.table b p).map (·.kind) = some kind := by
  rw [Inlined.kindAt]
  constructor
  · intro hk
    obtain ⟨block, hb, hk⟩ := Option.map_eq_some_iff.1 hk
    obtain ⟨p, hp, hblock⟩ := h.point_at hb
    exact ⟨p, hp, by rw [hblock, Option.map_some, hk]⟩
  · rintro ⟨p, hp, hk⟩
    rwa [h.content b p hp]

theorem CountsPoints.kindAt_body (h : inl.CountsPoints entry i pts) :
    i.kindAt b = some (.body m first last depth) ↔ ∃ a cs lb, pts[b]? = some (.block a cs) ∧
      inl.blockAt i.table a = some lb ∧ a.method = m ∧ lb.first = first ∧ lb.last = last ∧
        cs.length = depth := by
  rw [h.kindAt_eq_some]
  constructor
  · rintro ⟨p, hp, hk⟩
    obtain ⟨block, hfor, hk⟩ := Option.map_eq_some_iff.1 hk
    cases p with
    | block a cs =>
      obtain ⟨lb, hlb, rfl⟩ := Option.map_eq_some_iff.1 hfor
      cases hk
      exact ⟨a, cs, lb, hp, hlb, rfl, rfl, rfl, rfl⟩
    | enter a cs =>
      obtain ⟨found, -, rfl⟩ := Option.map_eq_some_iff.1 hfor
      cases hk
    | leave a cs =>
      obtain ⟨found, -, rfl⟩ := Option.map_eq_some_iff.1 hfor
      cases hk
  · rintro ⟨a, cs, lb, hp, hlb, rfl, rfl, rfl, rfl⟩
    exact ⟨_, hp, by rw [blockFor, hlb]; rfl⟩

end CountsPoints

end Inliner

end PointsTo
