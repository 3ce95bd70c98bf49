import PointsTo.Proofs.Partition

/-! Ranks over whole histories. A root has at least as many elements as two to the power of its
rank, so ranks of sets of 32-bit words fit into a byte with room to spare. -/
namespace PointsTo

namespace UnionFind

variable {u v : UnionFind} {ops : List Operation} {op : Operation} {n k x y r s extra : Nat}

def members (u : UnionFind) (r : Nat) : Finset Nat :=
  (Finset.range u.size).filter fun x => u.root x = r

theorem mem_members : x ∈ u.members r ↔ x < u.size ∧ u.root x = r := by
  rw [members, Finset.mem_filter, Finset.mem_range]

def Weighted (u : UnionFind) : Prop := ∀ r ∈ u.heads, 2 ^ u.rankOf r ≤ (u.members r).card

theorem members_of_sameRoots (hsame : u.SameRoots v) (hsize : v.size = u.size) (r : Nat) :
    v.members r = u.members r := by
  ext x
  rw [mem_members, mem_members, hsame, hsize]

theorem Links.card_members_winner (h : Links u v r s) (hne : r ≠ s) :
    (v.members s).card = (u.members r).card + (u.members s).card := by
  have hmembers : v.members s = u.members r ∪ u.members s := by
    ext x
    rw [Finset.mem_union, mem_members, mem_members, mem_members, h.size, h.roots]
    grind
  have hdisjoint : Disjoint (u.members r) (u.members s) := by
    refine Finset.disjoint_left.2 fun x hr hs => hne ?_
    exact (mem_members.1 hr).2.symm.trans (mem_members.1 hs).2
  rw [hmembers, Finset.card_union_of_disjoint hdisjoint]

theorem Links.members_of_ne (h : Links u v r s) (hr : x ≠ r) (hs : x ≠ s) :
    v.members x = u.members x := by
  ext y
  rw [mem_members, mem_members, h.size, h.roots]
  grind

theorem WellFormed.rankOf_of_size_le (h : u.WellFormed) (hx : u.size ≤ x) : u.rankOf x = 0 := by
  have hle : u.rank.size ≤ x := h.ranks ▸ hx
  rw [rankOf, Array.getD_eq_getD_getElem?, Array.getElem?_eq_none hle]
  rfl

namespace Weighted

theorem of_sameRoots (h : u.Weighted) (hsame : u.SameRoots v) (hsize : v.size = u.size)
    (hranks : v.rankOf = u.rankOf) : v.Weighted := by
  intro r hr
  rw [heads_of_sameRoots hsame hsize] at hr
  rw [members_of_sameRoots hsame hsize, hranks]
  exact h r hr

theorem growTo (h : u.Weighted) (hu : u.WellFormed) (x : Nat) : (u.growTo x).Weighted := by
  obtain ⟨-, hsame, -⟩ := growTo_spec hu x
  intro r hr
  obtain ⟨hlt, hroot⟩ := mem_heads.1 hr
  rw [hsame] at hroot
  rw [rankOf_growTo]
  by_cases hold : r < u.size
  · refine (h r (mem_heads.2 ⟨hold, hroot⟩)).trans (Finset.card_le_card fun z hz => ?_)
    obtain ⟨hz, hzr⟩ := mem_members.1 hz
    refine mem_members.2 ⟨?_, (hsame z).trans hzr⟩
    rw [size_growTo]
    omega
  · have hmem : r ∈ (u.growTo x).members r := mem_members.2 ⟨hlt, (hsame r).trans hroot⟩
    rw [hu.rankOf_of_size_le (Nat.le_of_not_lt hold)]
    exact Finset.card_pos.2 ⟨r, hmem⟩

theorem find (h : u.Weighted) (hu : u.WellFormed) (x : Nat) : (u.find x).2.Weighted := by
  obtain ⟨-, hgrown, -⟩ := growTo_spec hu x
  obtain ⟨-, -, hsame, hsize⟩ := find_spec hu x
  exact (h.growTo hu x).of_sameRoots (fun z => (hsame z).trans (hgrown z).symm) hsize rfl

/-- The winner has the elements of both, so it may rise above a loser of its own rank. -/
theorem outranks (h : u.Weighted) (hv : Outranks u v r s) (hne : r ≠ s) (hr : r ∈ u.heads)
    (hs : s ∈ u.heads) : v.Weighted := by
  intro z hz
  rw [hv.links.heads hne (mem_heads.1 hr).2 (mem_heads.1 hs).2, Finset.mem_erase] at hz
  obtain ⟨hzr, hz⟩ := hz
  by_cases hzs : z = s
  · subst hzs
    have hloser := h r hr
    have hwinner := h z hs
    rw [hv.links.card_members_winner hne]
    by_cases heq : u.rankOf r = u.rankOf z
    · rw [hv.ranks, if_pos ⟨rfl, heq⟩, Nat.pow_succ]
      rw [heq] at hloser
      omega
    · rw [hv.ranks, if_neg fun hz' => heq hz'.2]
      omega
  · rw [hv.links.members_of_ne hzr hzs, hv.ranks, if_neg fun hz' => hzs hz'.1]
    exact h z hz

theorem union (h : u.Weighted) (hu : u.WellFormed) (x y : Nat) : (u.union x y).2.Weighted := by
  obtain ⟨-, hfirst, -⟩ := find_spec hu x
  have hsearched : (u.searched x y).Weighted := (h.find hu x).find hfirst y
  by_cases heq : u.root x = u.root y
  · rw [union_same hu heq]
    exact hsearched
  · obtain ⟨hx, hy⟩ := hu.roots_mem_heads x y
    rcases union_outranks hu heq with ⟨-, houtranks⟩ | ⟨-, houtranks⟩
    · exact hsearched.outranks houtranks (Ne.symm heq) hy hx
    · exact hsearched.outranks houtranks heq hx hy

theorem apply (h : u.Weighted) (hu : u.WellFormed) (op : Operation) : (u.apply op).Weighted := by
  cases op with
  | grow x => exact h.growTo hu x
  | find x => exact h.find hu x
  | union x y => exact h.union hu x y

end Weighted

theorem singletons_weighted (n : Nat) : (singletons n).Weighted := by
  intro r hr
  have hrank : (singletons n).rankOf r = 0 := by
    rw [rankOf, singletons, Array.getD_eq_getD_getElem?, Array.getElem?_replicate]
    split <;> rfl
  rw [hrank]
  exact Finset.card_pos.2 ⟨r, mem_members.2 (mem_heads.1 hr)⟩

theorem Weighted.run (h : u.Weighted) (hu : Tracks n extra ops u) (later : List Operation) :
    (u.run later).Weighted := by
  induction later generalizing ops u with
  | nil => exact h
  | cons op later ih => exact ih (h.apply hu.wellFormed op) (hu.apply op)

section Bound

def Words (ops : List Operation) : Prop := ∀ op ∈ ops, ∀ x ∈ op.elements, x < 2 ^ 32

instance : Decidable (Words ops) :=
  inferInstanceAs (Decidable (∀ op ∈ ops, ∀ x ∈ op.elements, x < 2 ^ 32))

theorem Connected.lt_of_ne (h : Connected ops x y) (hops : Words ops) (hne : x ≠ y) :
    x < 2 ^ 32 ∧ y < 2 ^ 32 := by
  induction h with
  | rel x y hxy => exact ⟨hops _ hxy x (by simp [Operation.elements]),
      hops _ hxy y (by simp [Operation.elements])⟩
  | refl x => exact absurd rfl hne
  | symm x y _ ih => exact (ih (Ne.symm hne)).symm
  | trans x y z _ _ ih ih' =>
    by_cases hxy : x = y
    · exact hxy ▸ ih' (hxy ▸ hne)
    · by_cases hyz : y = z
      · exact hyz ▸ ih hxy
      · exact ⟨(ih hxy).1, (ih' hyz).2⟩

theorem ncard_connected_le (hops : Words ops) (x : Nat) :
    {y | Connected ops x y}.ncard ≤ 2 ^ 32 := by
  by_cases hx : x < 2 ^ 32
  · have hsub : {y | Connected ops x y} ⊆ ↑(Finset.range (2 ^ 32)) := by
      intro y hy
      rw [Finset.mem_coe, Finset.mem_range]
      by_cases hxy : x = y
      · exact hxy ▸ hx
      · exact (hy.lt_of_ne hops hxy).2
    refine (Set.ncard_le_ncard hsub (Finset.finite_toSet _)).trans ?_
    rw [Set.ncard_coe_finset, Finset.card_range]
  · have hsub : {y | Connected ops x y} ⊆ {x} := by
      intro y hy
      by_contra hyx
      exact hx (hy.lt_of_ne hops (Ne.symm hyx)).1
    refine (Set.ncard_le_ncard hsub).trans ?_
    rw [Set.ncard_singleton]
    exact Nat.one_le_two_pow

theorem Tracks.card_members (h : Tracks n extra ops u) (hr : r < u.size)
    (hroot : parentOf u.parent r = r) : (u.members r).card = {x | Connected ops r x}.ncard := by
  have hself : u.root r = r := h.wellFormed.root_eq (.root hroot)
  have hset : {x | Connected ops r x} = ↑(u.members r) := by
    ext x
    rw [Set.mem_ofPred_eq, ← h.roots, hself, Finset.mem_coe, mem_members]
    constructor
    · intro hx
      refine ⟨?_, hx.symm⟩
      by_contra hge
      rw [h.wellFormed.root_of_size_le (Nat.le_of_not_lt hge)] at hx
      omega
    · exact fun hx => hx.2.symm
  rw [hset, Set.ncard_coe_finset]

theorem Tracks.pow_rank_le (h : Tracks n extra ops u) (hw : u.Weighted) (hr : r < u.size)
    (hroot : parentOf u.parent r = r) : 2 ^ u.rankOf r ≤ {x | Connected ops r x}.ncard := by
  rw [← h.card_members hr hroot]
  exact hw r (mem_heads.2 ⟨hr, h.wellFormed.root_eq (.root hroot)⟩)

/-- The root has the highest rank of its set, which is too small for a rank above 32. -/
theorem Tracks.rank_le (h : Tracks n extra ops u) (hw : u.Weighted) (hops : Words ops) (x : Nat) :
    u.rankOf x ≤ 32 := by
  by_cases hx : x < u.size
  · obtain ⟨n, hn⟩ := h.wellFormed.reaches_root x
    have hrank : u.rankOf x ≤ u.rankOf (u.root x) := by
      rcases h.wellFormed.rank_le_of_reaches hn with heq | hlt
      · exact Nat.le_of_eq (congrArg u.rankOf heq)
      · exact Nat.le_of_lt hlt
    have hpow : 2 ^ u.rankOf (u.root x) ≤ 2 ^ 32 :=
      (h.pow_rank_le hw (h.wellFormed.root_lt_size hx) (h.wellFormed.parent_root x)).trans
        (ncard_connected_le hops _)
    exact hrank.trans ((Nat.pow_le_pow_iff_right Nat.one_lt_two).1 hpow)
  · rw [h.wellFormed.rankOf_of_size_le (Nat.le_of_not_lt hx)]
    exact Nat.zero_le 32

end Bound

theorem rankOf_searched (u : UnionFind) (x y : Nat) : (u.searched x y).rankOf = u.rankOf :=
  (rankOf_growTo _ y).trans (rankOf_growTo u x)

/-- A union changes no rank but that of a root whose rank the other root has too. -/
theorem rankOf_union (h : u.WellFormed) (hne : (u.union x y).2.rankOf k ≠ u.rankOf k) :
    (k = u.root x ∨ k = u.root y) ∧ u.rankOf (u.root x) = u.rankOf (u.root y) ∧
      (u.union x y).2.rankOf k = u.rankOf k + 1 := by
  by_cases heq : u.root x = u.root y
  · rw [union_same h heq, rankOf_searched] at hne
    exact absurd rfl hne
  · rcases union_outranks h heq with ⟨-, houtranks⟩ | ⟨-, houtranks⟩
    · have hranks := houtranks.ranks k
      rw [rankOf_searched] at hranks
      split at hranks
      next hk => exact ⟨.inl hk.1, hk.2.symm, hranks⟩
      next => exact absurd hranks hne
    · have hranks := houtranks.ranks k
      rw [rankOf_searched] at hranks
      split at hranks
      next hk => exact ⟨.inr hk.1, hk.2, hranks⟩
      next => exact absurd hranks hne

def bytes (u : UnionFind) : UnionFind := { u with rank := u.rank.map (·.toUInt8.toNat) }

def runBytes (u : UnionFind) (ops : List Operation) : UnionFind :=
  ops.foldl (fun u op => (u.apply op).bytes) u

theorem bytes_eq_self (h : ∀ x, u.rankOf x < 2 ^ 8) : u.bytes = u := by
  have hranks : u.rank.map (·.toUInt8.toNat) = u.rank := by
    refine Array.ext Array.size_map fun i hi hi' => ?_
    have hlt := h i
    rw [rankOf, Array.getD_eq_getD_getElem?, Array.getElem?_eq_getElem hi'] at hlt
    rw [Array.getElem_map]
    exact Nat.mod_eq_of_lt hlt
  rw [bytes, hranks]

theorem Tracks.runBytes (h : Tracks n extra ops u) (hw : u.Weighted) {later : List Operation}
    (hops : Words (ops ++ later)) : u.runBytes later = u.run later := by
  induction later generalizing ops u with
  | nil => rfl
  | cons op later ih =>
    rw [← List.singleton_append, ← List.append_assoc] at hops
    have hnext := h.apply op
    have hwnext := hw.apply h.wellFormed op
    have hbytes : (u.apply op).bytes = u.apply op :=
      bytes_eq_self fun x => Nat.lt_of_le_of_lt
        (hnext.rank_le hwnext (fun op hop => hops op (List.mem_append_left later hop)) x)
        (by decide)
    change ((u.apply op).bytes).runBytes later = (u.apply op).run later
    rw [hbytes]
    exact ih hnext hwnext hops

/-- What holds of the ranks after the calls `ops`. -/
structure Ranked (start : UnionFind) (ops : List Operation) : Prop where
  /-- A parent has a higher rank. -/
  ascends : ∀ x, parentOf (start.run ops).parent x ≠ x →
    (start.run ops).rankOf x < (start.run ops).rankOf (parentOf (start.run ops).parent x)
  /-- The class of a root has two to the power of its rank elements, or more. -/
  weighs : ∀ r < (start.run ops).size, parentOf (start.run ops).parent r = r →
    2 ^ (start.run ops).rankOf r ≤ {x | Connected ops r x}.ncard
  /-- Classes of words are too small for higher ranks. -/
  bounded : Words ops → ∀ x, (start.run ops).rankOf x ≤ 32
  /-- A union changes a rank only where two roots have the same one, and raises it by one. -/
  rises : ∀ x y z, ((start.run ops).union x y).2.rankOf z ≠ (start.run ops).rankOf z →
    (z = (start.run ops).root x ∨ z = (start.run ops).root y) ∧
      (start.run ops).rankOf ((start.run ops).root x) =
        (start.run ops).rankOf ((start.run ops).root y) ∧
      ((start.run ops).union x y).2.rankOf z = (start.run ops).rankOf z + 1 ∧
      (Words (ops ++ [.union x y]) → (start.run ops).rankOf z < 32)
  /-- So ranks that are counted in bytes never overflow. -/
  bytes : Words ops → start.runBytes ops = start.run ops

/-- Ranks stay small, whatever was called in whatever order. -/
theorem run_ranked (n : Nat) (ops : List Operation) :
    Ranked (singletons n) ops ∧ Ranked empty ops := by
  have hall : ∀ n, Ranked (singletons n) ops := by
    intro n
    have htracks : ∀ ops, Tracks (n % 2 ^ 32) (n - n % 2 ^ 32) ops ((singletons n).run ops) :=
      (singletons_track n).run
    have hweighted : ∀ ops, ((singletons n).run ops).Weighted :=
      (singletons_weighted n).run (singletons_track n)
    constructor
    case ascends => exact (htracks ops).wellFormed.ascends
    case weighs => exact fun r hr hroot => (htracks ops).pow_rank_le (hweighted ops) hr hroot
    case bounded => exact fun hops x => (htracks ops).rank_le (hweighted ops) hops x
    case rises =>
      intro x y z hne
      obtain ⟨hroot, hsame, hrises⟩ := rankOf_union (htracks ops).wellFormed hne
      refine ⟨hroot, hsame, hrises, fun hops => ?_⟩
      have hle := ((htracks ops).union x y).rank_le
        ((hweighted ops).union (htracks ops).wellFormed x y) hops z
      omega
    case bytes => exact fun hops => (singletons_track n).runBytes (singletons_weighted n) hops
  exact ⟨hall n, hall 0⟩

def pairing : List Operation := [.union 0 1, .union 3 2, .union 1 2]

theorem pairing_ranked : Words pairing ∧ (Ranked (singletons 4) pairing ∧ Ranked empty pairing) ∧
    ((singletons 4).run pairing).rank = #[2, 0, 0, 1] ∧
    ((singletons 4).runBytes pairing).rank = #[2, 0, 0, 1] := by
  have hwords : Words pairing := by decide +kernel
  obtain ⟨hranked, hempty⟩ := run_ranked 4 pairing
  have hranks : ((singletons 4).run pairing).rank = #[2, 0, 0, 1] := by decide +kernel
  exact ⟨hwords, ⟨hranked, hempty⟩, hranks, (congrArg rank (hranked.bytes hwords)).trans hranks⟩

end UnionFind

end PointsTo
