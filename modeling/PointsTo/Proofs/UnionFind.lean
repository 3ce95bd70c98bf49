import Mathlib.Data.Finset.Card
import Mathlib.Data.Finset.Range
import PointsTo.UnionFind

/-! Disjoint sets by their roots. Ranks grow along parents, so every element leads to a root;
growing and compressing keep all roots, and a union makes two of them one. -/
namespace PointsTo

namespace UnionFind

/-- Elements that are not there are their own parents. -/
def parentOf (parent : Array Nat) (x : Nat) : Nat := parent.getD x x

def rankOf (u : UnionFind) (x : Nat) : Nat := u.rank.getD x 0

inductive Reaches (parent : Array Nat) (r : Nat) : Nat → Nat → Prop where
  | root : parentOf parent r = r → Reaches parent r 0 r
  | step {n x} : parentOf parent x ≠ x → Reaches parent r n (parentOf parent x) →
      Reaches parent r (n + 1) x

structure WellFormed (u : UnionFind) : Prop where
  ranks : u.rank.size = u.parent.size
  inside : ∀ x < u.size, parentOf u.parent x < u.size
  ascends : ∀ x, parentOf u.parent x ≠ x → u.rankOf x < u.rankOf (parentOf u.parent x)

variable {u : UnionFind} {parent : Array Nat} {x y r s n k : Nat}

theorem Reaches.is_root (h : Reaches parent r n x) : parentOf parent r = r := by
  induction h with
  | root hr => exact hr
  | step _ _ ih => exact ih

theorem Reaches.unique (h : Reaches parent r n x) (h' : Reaches parent s k x) : r = s := by
  induction h generalizing k with
  | root hr =>
    cases h' with
    | root => rfl
    | step hne => exact absurd hr hne
  | step hne _ ih =>
    cases h' with
    | root hs => exact absurd hs hne
    | step _ h' => exact ih h'

theorem climb_eq (h : Reaches parent r n x) (hn : n ≤ k) : climb parent k x = r := by
  induction h generalizing k with
  | root hr =>
    cases k with
    | zero => rfl
    | succ k => exact if_pos hr
  | step hne _ ih =>
    cases k with
    | zero => omega
    | succ k =>
      rw [climb]
      exact (if_neg hne).trans (ih (by omega))

def above (u : UnionFind) (x : Nat) : Nat :=
  ((Finset.range u.size).filter fun y => u.rankOf x < u.rankOf y).card

theorem above_le_size (u : UnionFind) (x : Nat) : u.above x ≤ u.size := by
  refine (Finset.card_filter_le _ _).trans ?_
  rw [Finset.card_range]

theorem lt_size_of_parent_ne (h : parentOf u.parent x ≠ x) : x < u.size := by
  by_contra hge
  apply h
  rw [parentOf, Array.getD_eq_getD_getElem?, Array.getElem?_eq_none (Nat.le_of_not_lt hge)]
  rfl

namespace WellFormed

theorem above_parent (h : u.WellFormed) (hne : parentOf u.parent x ≠ x) :
    u.above (parentOf u.parent x) < u.above x := by
  have hrank := h.ascends x hne
  have hinside := h.inside x (lt_size_of_parent_ne hne)
  apply Finset.card_lt_card
  refine Finset.ssubset_iff_subset_ne.2 ⟨fun y hy => ?_, fun heq => ?_⟩
  · rw [Finset.mem_filter] at hy ⊢
    exact ⟨hy.1, by omega⟩
  · have hmem : parentOf u.parent x ∈
        (Finset.range u.size).filter fun y => u.rankOf x < u.rankOf y :=
      Finset.mem_filter.2 ⟨Finset.mem_range.2 hinside, hrank⟩
    rw [← heq, Finset.mem_filter] at hmem
    omega

/-- Going up ends within as many steps as there are elements. -/
theorem reaches (h : u.WellFormed) (x : Nat) : ∃ r n, n ≤ u.above x ∧ Reaches u.parent r n x := by
  induction hx : u.above x using Nat.strong_induction_on generalizing x with
  | h m ih =>
    by_cases hroot : parentOf u.parent x = x
    · exact ⟨x, 0, Nat.zero_le _, .root hroot⟩
    · have hlt := h.above_parent hroot
      obtain ⟨r, n, hn, hreach⟩ := ih _ (hx ▸ hlt) (parentOf u.parent x) rfl
      exact ⟨r, n + 1, by omega, .step hroot hreach⟩

theorem reaches_root (h : u.WellFormed) (x : Nat) : ∃ n, Reaches u.parent (u.root x) n x := by
  obtain ⟨r, n, hn, hreach⟩ := h.reaches x
  have hroot : u.root x = r := climb_eq hreach (hn.trans (u.above_le_size x))
  exact ⟨n, hroot ▸ hreach⟩

theorem root_eq (h : u.WellFormed) (hr : Reaches u.parent r n x) : u.root x = r := by
  obtain ⟨k, hk⟩ := h.reaches_root x
  exact hk.unique hr

theorem rank_le_of_reaches (h : u.WellFormed) (hr : Reaches u.parent r n x) :
    x = r ∨ u.rankOf x < u.rankOf r := by
  induction hr with
  | root => exact Or.inl rfl
  | @step n x hne hr ih =>
    have := h.ascends x hne
    rcases ih with heq | hlt
    · exact Or.inr (heq ▸ this)
    · exact Or.inr (by omega)

theorem root_lt (h : u.WellFormed) (hr : Reaches u.parent r n x) (hx : x < u.size) :
    r < u.size := by
  induction hr with
  | root => exact hx
  | @step n x _ _ ih => exact ih (h.inside x hx)

end WellFormed

section Hang

theorem parentOf_set (hx : x < parent.size) (r y : Nat) :
    parentOf (parent.setIfInBounds x r) y = if y = x then r else parentOf parent y := by
  simp only [parentOf, Array.getD_eq_getD_getElem?, Array.getElem?_setIfInBounds]
  by_cases hxy : x = y
  · subst hxy
    simp [hx]
  · simp [hxy, Ne.symm hxy]

/-- Hanging an element directly below its root changes no root, and makes no way longer. -/
theorem Reaches.shortcut (h : Reaches parent s n y) (hx : x < parent.size)
    (hxr : Reaches parent r k x) (hne : x ≠ r) :
    ∃ n' ≤ n, Reaches (parent.setIfInBounds x r) s n' y := by
  have hroot : Reaches (parent.setIfInBounds x r) r 0 r := by
    apply Reaches.root
    rw [parentOf_set hx, if_neg (Ne.symm hne)]
    exact hxr.is_root
  induction h with
  | @root hs =>
    by_cases hxs : s = x
    · subst hxs
      exact absurd (hxr.unique (.root hs)) (Ne.symm hne)
    · refine ⟨0, Nat.le_refl 0, .root ?_⟩
      rw [parentOf_set hx, if_neg hxs]
      exact hs
  | @step n y hstep h ih =>
    by_cases hyx : y = x
    · subst hyx
      obtain rfl := hxr.unique (.step hstep h)
      refine ⟨1, Nat.le_add_left 1 n, .step ?_ ?_⟩
      · rw [parentOf_set hx, if_pos rfl]
        exact Ne.symm hne
      · rw [parentOf_set hx, if_pos rfl]
        exact hroot
    · obtain ⟨n', hle, hn'⟩ := ih
      have hparent : parentOf (parent.setIfInBounds x r) y = parentOf parent y := by
        rw [parentOf_set hx, if_neg hyx]
      exact ⟨n' + 1, Nat.succ_le_succ hle, .step (hparent ▸ hstep) (hparent ▸ hn')⟩

/-- Hanging a root below another one gives its elements the other root. -/
theorem Reaches.link (h : Reaches parent s n y) (hx : x < parent.size)
    (hroot : parentOf parent x = x) (hr : parentOf parent r = r) (hne : x ≠ r) :
    ∃ n', Reaches (parent.setIfInBounds x r) (if s = x then r else s) n' y := by
  induction h with
  | @root hs =>
    by_cases hsx : s = x
    · subst hsx
      rw [if_pos rfl]
      refine ⟨1, .step ?_ ?_⟩
      · rw [parentOf_set hx, if_pos rfl]
        exact Ne.symm hne
      · rw [parentOf_set hx, if_pos rfl]
        apply Reaches.root
        rw [parentOf_set hx, if_neg (Ne.symm hne)]
        exact hr
    · rw [if_neg hsx]
      refine ⟨0, .root ?_⟩
      rw [parentOf_set hx, if_neg hsx]
      exact hs
  | @step n y hstep h ih =>
    obtain ⟨n', hn'⟩ := ih
    have hyx : y ≠ x := by
      rintro rfl
      exact hstep hroot
    have hparent : parentOf (parent.setIfInBounds x r) y = parentOf parent y := by
      rw [parentOf_set hx, if_neg hyx]
    exact ⟨n' + 1, .step (hparent ▸ hstep) (hparent ▸ hn')⟩

end Hang

def SameRoots (u v : UnionFind) : Prop := ∀ x, v.root x = u.root x

theorem WellFormed.sameRoots {v : UnionFind} (h : u.WellFormed) (h' : v.WellFormed)
    (hr : ∀ s n y, Reaches u.parent s n y → ∃ n', Reaches v.parent s n' y) : u.SameRoots v := by
  intro y
  obtain ⟨n, hn⟩ := h.reaches_root y
  obtain ⟨n', hn'⟩ := hr _ _ _ hn
  exact h'.root_eq hn'

theorem parentOf_growTo (u : UnionFind) (x : Nat) :
    parentOf (u.growTo x).parent = parentOf u.parent := by
  funext y
  simp only [growTo, parentOf, size, Array.getD_eq_getD_getElem?, Array.getElem?_append,
    Array.getElem?_map, Array.getElem?_range]
  by_cases hy : y < u.parent.size
  · rw [if_pos hy]
  · rw [if_neg hy, Array.getElem?_eq_none (Nat.le_of_not_lt hy)]
    split
    · simp only [Option.map_some, Option.getD_some, Option.getD_none]
      omega
    · rfl

theorem rankOf_growTo (u : UnionFind) (x : Nat) : (u.growTo x).rankOf = u.rankOf := by
  funext y
  simp only [growTo, rankOf, Array.getD_eq_getD_getElem?, Array.getElem?_append,
    Array.getElem?_replicate]
  by_cases hy : y < u.rank.size
  · rw [if_pos hy]
  · rw [if_neg hy, Array.getElem?_eq_none (Nat.le_of_not_lt hy)]
    split <;> rfl

theorem size_growTo (u : UnionFind) (x : Nat) : (u.growTo x).size = u.size + (x + 1 - u.size) := by
  simp [growTo, size]

theorem growTo_spec (h : u.WellFormed) (x : Nat) :
    (u.growTo x).WellFormed ∧ u.SameRoots (u.growTo x) ∧ x < (u.growTo x).size := by
  have hwf : (u.growTo x).WellFormed := by
    constructor
    case ranks => simp [growTo, h.ranks]
    case inside =>
      intro y hy
      rw [parentOf_growTo]
      by_cases hne : parentOf u.parent y = y
      · rw [hne]
        exact hy
      · have := h.inside y (lt_size_of_parent_ne hne)
        rw [size_growTo]
        omega
    case ascends =>
      intro y hne
      rw [parentOf_growTo] at hne ⊢
      rw [rankOf_growTo]
      exact h.ascends y hne
  refine ⟨hwf, h.sameRoots hwf fun s n y hr => ⟨n, ?_⟩, by rw [size_growTo]; omega⟩
  induction hr with
  | root hs => exact .root (parentOf_growTo u x ▸ hs)
  | step hne _ ih => exact .step (parentOf_growTo u x ▸ hne) (parentOf_growTo u x ▸ ih)

theorem WellFormed.hang (h : u.WellFormed) (hx : x < u.size) (hr : r < u.size)
    (hrank : u.rankOf x < u.rankOf r) (classes : Nat) :
    (⟨u.parent.setIfInBounds x r, u.rank, classes⟩ : UnionFind).WellFormed := by
  constructor
  case ranks => simpa using h.ranks
  case inside =>
    intro y hy
    rw [size, Array.size_setIfInBounds] at hy ⊢
    rw [parentOf_set hx]
    split
    · exact hr
    · exact h.inside y hy
  case ascends =>
    intro y hne
    change u.rankOf y < u.rankOf _
    rw [parentOf_set hx] at hne ⊢
    split at hne
    · next heq =>
      rw [if_pos heq, heq]
      exact hrank
    · next hyx =>
      rw [if_neg hyx]
      exact h.ascends y hne

theorem rankOf_set (h : u.WellFormed) (hr : r < u.size) (k y classes : Nat) :
    (⟨u.parent, u.rank.setIfInBounds r k, classes⟩ : UnionFind).rankOf y =
      if y = r then k else u.rankOf y := by
  have hlt : r < u.rank.size := h.ranks ▸ hr
  simp only [rankOf, Array.getD_eq_getD_getElem?, Array.getElem?_setIfInBounds]
  by_cases hry : r = y
  · subst hry
    simp [hlt]
  · simp [hry, Ne.symm hry]

theorem WellFormed.raise (h : u.WellFormed) (hr : r < u.size) (hroot : parentOf u.parent r = r)
    (hk : u.rankOf r ≤ k) (classes : Nat) :
    (⟨u.parent, u.rank.setIfInBounds r k, classes⟩ : UnionFind).WellFormed := by
  constructor
  case ranks => simpa using h.ranks
  case inside => exact h.inside
  case ascends =>
    intro y hne
    have hyr : y ≠ r := by
      rintro rfl
      exact hne hroot
    have hlt := h.ascends y hne
    rw [rankOf_set h hr, rankOf_set h hr, if_neg hyr]
    split
    · next heq =>
      rw [heq] at hlt
      omega
    · exact hlt

theorem compress_spec (h : u.WellFormed) (hx : x < u.size) (hr : Reaches u.parent r n x)
    (steps : Nat) :
    (⟨compress r steps x u.parent, u.rank, u.classes⟩ : UnionFind).WellFormed ∧
      ∀ s k y, Reaches u.parent s k y → ∃ k', Reaches (compress r steps x u.parent) s k' y := by
  induction steps generalizing u x n with
  | zero => exact ⟨h, fun s k y hs => ⟨k, hs⟩⟩
  | succ steps ih =>
    rw [compress]
    by_cases hp : parentOf u.parent x = r
    · rw [parentOf] at hp
      rw [if_pos hp]
      exact ⟨h, fun s k y hs => ⟨k, hs⟩⟩
    · have hne : x ≠ r := by
        rintro rfl
        exact hp hr.is_root
      cases hr with
      | root => exact absurd rfl hne
      | @step n _ hstep hr =>
        have hxr := Reaches.step hstep hr
        have hrank := (h.rank_le_of_reaches hxr).resolve_left hne
        have hwf := h.hang hx (h.root_lt hxr hx) hrank u.classes
        have hinside := h.inside x hx
        obtain ⟨n', -, hr'⟩ := hr.shortcut hx hxr hne
        obtain ⟨hwf', hkeep⟩ := ih hwf (by simpa [size] using hinside) hr'
        rw [parentOf] at hp
        rw [if_neg hp]
        refine ⟨hwf', fun s k y hs => ?_⟩
        obtain ⟨k', -, hk'⟩ := hs.shortcut hx hxr hne
        exact hkeep s k' y hk'

theorem size_compress (r steps x : Nat) (parent : Array Nat) :
    (compress r steps x parent).size = parent.size := by
  induction steps generalizing x parent with
  | zero => rfl
  | succ steps ih =>
    rw [compress]
    split
    · rfl
    · rw [ih, Array.size_setIfInBounds]

/-- Finding gives the root, and changes none. -/
theorem find_spec (h : u.WellFormed) (x : Nat) :
    (u.find x).1 = u.root x ∧ (u.find x).2.WellFormed ∧ u.SameRoots (u.find x).2 ∧
      (u.find x).2.size = (u.growTo x).size := by
  obtain ⟨hwf, hsame, hx⟩ := growTo_spec h x
  obtain ⟨n, hn⟩ := hwf.reaches_root x
  obtain ⟨hwf', hkeep⟩ := compress_spec hwf hx hn (u.growTo x).size
  refine ⟨hsame x, hwf', fun y => ?_, size_compress _ _ _ _⟩
  exact (hwf.sameRoots hwf' hkeep y).trans (hsame y)

theorem WellFormed.parent_root (h : u.WellFormed) (x : Nat) :
    parentOf u.parent (u.root x) = u.root x := by
  obtain ⟨n, hn⟩ := h.reaches_root x
  exact hn.is_root

/-- One root hangs below another: the sets of both have the other root, and are one set now. -/
structure Links (u v : UnionFind) (loser winner : Nat) : Prop where
  wellFormed : v.WellFormed
  size : v.size = u.size
  classes : v.classes = u.classes - 1
  roots : ∀ z, v.root z = if u.root z = loser then winner else u.root z

theorem WellFormed.link (h : u.WellFormed) (hx : x < u.size) (hy : y < u.size)
    (hrootx : parentOf u.parent x = x) (hrooty : parentOf u.parent y = y)
    (hrank : u.rankOf x < u.rankOf y) :
    Links u ⟨u.parent.setIfInBounds x y, u.rank, u.classes - 1⟩ x y := by
  have hwf := h.hang hx hy hrank (u.classes - 1)
  refine ⟨hwf, by simp [size], rfl, fun z => ?_⟩
  obtain ⟨n, hn⟩ := h.reaches_root z
  have hne : x ≠ y := by
    rintro rfl
    omega
  obtain ⟨n', hn'⟩ := hn.link hx hrootx hrooty hne
  exact hwf.root_eq hn'

structure Joined (u v : UnionFind) (rx ry : Nat) : Prop where
  wellFormed : v.WellFormed
  roots : ∃ r, (r = rx ∨ r = ry) ∧
    ∀ z, v.root z = if u.root z = rx ∨ u.root z = ry then r else u.root z

theorem Joined.symm {v : UnionFind} (h : Joined u v r s) : Joined u v s r where
  wellFormed := h.wellFormed
  roots := by
    obtain ⟨root, hroot, hz⟩ := h.roots
    exact ⟨root, hroot.symm, fun z => by simp only [hz, or_comm]⟩

theorem Joined.of_sameRoots {v w : UnionFind} (h : Joined v w r s) (hsame : u.SameRoots v) :
    Joined u w r s where
  wellFormed := h.wellFormed
  roots := by simpa only [hsame _] using h.roots

theorem WellFormed.joined_self (h : u.WellFormed) (r : Nat) : Joined u u r r := by
  refine ⟨h, r, Or.inl rfl, fun z => ?_⟩
  by_cases hz : u.root z = r
  · rw [if_pos (Or.inl hz), hz]
  · rw [if_neg (not_or.2 ⟨hz, hz⟩)]

theorem Links.joined {v : UnionFind} (h : Links u v r s) : Joined u v r s := by
  refine ⟨h.wellFormed, s, Or.inr rfl, fun z => ?_⟩
  rw [h.roots]
  by_cases hzr : u.root z = r
  · rw [if_pos hzr, if_pos (Or.inl hzr)]
  · by_cases hzs : u.root z = s
    · rw [if_neg hzr, if_pos (Or.inr hzs), hzs]
    · rw [if_neg hzr, if_neg (not_or.2 ⟨hzr, hzs⟩)]

theorem WellFormed.root_lt_size (h : u.WellFormed) (hx : x < u.size) : u.root x < u.size := by
  obtain ⟨n, hn⟩ := h.reaches_root x
  exact h.root_lt hn hx

def searched (u : UnionFind) (x y : Nat) : UnionFind := ((u.find x).2.find y).2

theorem searched_spec (h : u.WellFormed) (x y : Nat) :
    (u.searched x y).WellFormed ∧ u.SameRoots (u.searched x y) ∧
      (u.searched x y).size = ((u.growTo x).growTo y).size := by
  obtain ⟨-, hwf₁, hsame₁, hsize₁⟩ := find_spec h x
  obtain ⟨-, hwf, hsame₂, hsize₂⟩ := find_spec hwf₁ y
  refine ⟨hwf, fun z => (hsame₂ z).trans (hsame₁ z), ?_⟩
  rw [searched, hsize₂, size_growTo, size_growTo, hsize₁]

inductive Unites (u : UnionFind) (rx ry : Nat) : Nat → UnionFind → Prop where
  | same : rx = ry → Unites u rx ry rx u
  | left {v} : rx ≠ ry → Links u v ry rx → Unites u rx ry rx v
  | right {v} : rx ≠ ry → Links u v rx ry → Unites u rx ry ry v

/-- A union of the roots that were found: the one of lower rank hangs below the other, of equal
ones the second below the first, which rises. -/
theorem union_eq (h : u.WellFormed) (x y : Nat) : u.union x y =
    let v := u.searched x y
    if v.root x = v.root y then (v.root x, v)
    else if v.rankOf (v.root x) < v.rankOf (v.root y) then
      (v.root y, ⟨v.parent.setIfInBounds (v.root x) (v.root y), v.rank, v.classes - 1⟩)
    else if v.rankOf (v.root y) < v.rankOf (v.root x) then
      (v.root x, ⟨v.parent.setIfInBounds (v.root y) (v.root x), v.rank, v.classes - 1⟩)
    else (v.root x, ⟨v.parent.setIfInBounds (v.root y) (v.root x),
      v.rank.setIfInBounds (v.root x) (v.rankOf (v.root x) + 1), v.classes - 1⟩) := by
  obtain ⟨hrx, hwf₁, hsame₁, -⟩ := find_spec h x
  have hry := (find_spec hwf₁ y).1
  have hsame := (searched_spec h x y).2.1
  dsimp only
  rw [hsame x, hsame y, ← hrx, ← hsame₁ y, ← hry]
  unfold union searched
  rcases u.find x with ⟨rx, u₁⟩
  dsimp only
  rcases u₁.find y with ⟨ry, u₂⟩
  rfl

/-- One root hangs below another one of no lower rank, which rises if the ranks are equal. -/
structure Outranks (u v : UnionFind) (loser winner : Nat) : Prop where
  links : Links u v loser winner
  ranks : ∀ z, v.rankOf z =
    if z = winner ∧ u.rankOf loser = u.rankOf winner then u.rankOf z + 1 else u.rankOf z

theorem WellFormed.outranks_of_lt (h : u.WellFormed) (hr : r < u.size) (hs : s < u.size)
    (hrootr : parentOf u.parent r = r) (hroots : parentOf u.parent s = s)
    (hlt : u.rankOf r < u.rankOf s) :
    Outranks u ⟨u.parent.setIfInBounds r s, u.rank, u.classes - 1⟩ r s where
  links := h.link hr hs hrootr hroots hlt
  ranks _ := (if_neg fun hz => absurd hz.2 (Nat.ne_of_lt hlt)).symm

/-- With equal ranks the winner rises first, which changes no root. -/
theorem WellFormed.outranks_of_eq (h : u.WellFormed) (hr : r < u.size) (hs : s < u.size)
    (hrootr : parentOf u.parent r = r) (hroots : parentOf u.parent s = s) (hne : r ≠ s)
    (heq : u.rankOf r = u.rankOf s) :
    Outranks u ⟨u.parent.setIfInBounds r s, u.rank.setIfInBounds s (u.rankOf s + 1),
      u.classes - 1⟩ r s := by
  have hraised := h.raise hs hroots (Nat.le_add_right _ 1) u.classes
  have hrank := rankOf_set h hs (u.rankOf s + 1)
  have hlinks := hraised.link hr hs hrootr hroots
    (by rw [hrank, hrank, if_neg hne, if_pos rfl]; omega)
  refine ⟨⟨hlinks.wellFormed, hlinks.size, hlinks.classes, hlinks.roots⟩, fun z => ?_⟩
  refine (hrank z (u.classes - 1)).trans ?_
  by_cases hz : z = s
  · rw [if_pos hz, if_pos ⟨hz, heq⟩, hz]
  · rw [if_neg hz, if_neg fun hz' => hz hz'.1]

theorem union_same (h : u.WellFormed) (heq : u.root x = u.root y) :
    u.union x y = (u.root x, u.searched x y) := by
  obtain ⟨-, hsame, -⟩ := searched_spec h x y
  rw [union_eq h]
  dsimp only
  rw [hsame, hsame, if_pos heq]

/-- Of two different roots that a union finds one outranks the other, and is given. -/
theorem union_outranks (h : u.WellFormed) (hne : u.root x ≠ u.root y) :
    (u.union x y).1 = u.root x ∧
        Outranks (u.searched x y) (u.union x y).2 (u.root y) (u.root x) ∨
      (u.union x y).1 = u.root y ∧
        Outranks (u.searched x y) (u.union x y).2 (u.root x) (u.root y) := by
  obtain ⟨hwf, hsame, hsize⟩ := searched_spec h x y
  rw [union_eq h]
  rw [← hsame x, ← hsame y] at hne ⊢
  rw [size_growTo, size_growTo] at hsize
  generalize u.searched x y = v at hwf hsize hne ⊢
  have hxlt : v.root x < v.size := hwf.root_lt_size (by omega)
  have hylt : v.root y < v.size := hwf.root_lt_size (by omega)
  have hrootx := hwf.parent_root x
  have hrooty := hwf.parent_root y
  dsimp only
  rw [if_neg hne]
  by_cases hlt : v.rankOf (v.root x) < v.rankOf (v.root y)
  · rw [if_pos hlt]
    exact .inr ⟨rfl, hwf.outranks_of_lt hxlt hylt hrootx hrooty hlt⟩
  · rw [if_neg hlt]
    by_cases hgt : v.rankOf (v.root y) < v.rankOf (v.root x)
    · rw [if_pos hgt]
      exact .inl ⟨rfl, hwf.outranks_of_lt hylt hxlt hrooty hrootx hgt⟩
    · rw [if_neg hgt]
      exact .inl ⟨rfl, hwf.outranks_of_eq hylt hxlt hrooty hrootx (Ne.symm hne) (by omega)⟩

theorem union_unites (h : u.WellFormed) (x y : Nat) :
    Unites (u.searched x y) (u.root x) (u.root y) (u.union x y).1 (u.union x y).2 := by
  by_cases heq : u.root x = u.root y
  · rw [union_same h heq]
    exact .same heq
  · rcases union_outranks h heq with ⟨hgiven, houtranks⟩ | ⟨hgiven, houtranks⟩
    · rw [hgiven]
      exact .left heq houtranks.links
    · rw [hgiven]
      exact .right heq houtranks.links

theorem union_spec (h : u.WellFormed) (x y : Nat) :
    Joined u (u.union x y).2 (u.root x) (u.root y) := by
  obtain ⟨hwf, hsame, -⟩ := searched_spec h x y
  refine Joined.of_sameRoots ?_ hsame
  have hunites := union_unites h x y
  generalize (u.union x y).1 = given, (u.union x y).2 = v at hunites ⊢
  cases hunites with
  | same heq => exact heq ▸ hwf.joined_self _
  | left _ hlinks => exact hlinks.joined.symm
  | right _ hlinks => exact hlinks.joined

theorem Joined.keeps {v : UnionFind} (h : Joined u v r s) (hxy : u.root x = u.root y) :
    v.root x = v.root y := by
  obtain ⟨root, -, hroots⟩ := h.roots
  rw [hroots, hroots, hxy]

theorem union_joins (h : u.WellFormed) (x y : Nat) :
    (u.union x y).2.root x = (u.union x y).2.root y := by
  obtain ⟨root, -, hroots⟩ := (union_spec h x y).roots
  rw [hroots, hroots, if_pos (Or.inl rfl), if_pos (Or.inr rfl)]

theorem size_union (h : u.WellFormed) (x y : Nat) :
    (u.union x y).2.size = ((u.growTo x).growTo y).size := by
  rw [← (searched_spec h x y).2.2]
  have hunites := union_unites h x y
  generalize (u.union x y).1 = given, (u.union x y).2 = v at hunites ⊢
  cases hunites with
  | same => rfl
  | left _ hlinks => exact hlinks.size
  | right _ hlinks => exact hlinks.size

theorem WellFormed.root_of_size_le (h : u.WellFormed) (hx : u.size ≤ x) : u.root x = x := by
  have hparent : parentOf u.parent x = x := by
    by_contra hne
    exact absurd (lt_size_of_parent_ne hne) (Nat.not_lt.2 hx)
  exact h.root_eq (.root hparent)

/-- A union joins nothing but the two sets. -/
theorem Joined.cases {v : UnionFind} {rx ry : Nat} (h : Joined u v rx ry)
    (hxy : v.root x = v.root y) : u.root x = u.root y ∨
      (u.root x = rx ∨ u.root x = ry) ∧ (u.root y = rx ∨ u.root y = ry) := by
  obtain ⟨r, hr, hroots⟩ := h.roots
  rw [hroots, hroots] at hxy
  split at hxy
  · next hx =>
    refine .inr ⟨hx, ?_⟩
    split at hxy
    · next hy => exact hy
    · exact hxy ▸ hr
  · next hx =>
    split at hxy
    · exact absurd (hxy ▸ hr) hx
    · exact .inl hxy

theorem empty_wellFormed : UnionFind.empty.WellFormed where
  ranks := rfl
  inside x hx := absurd hx (Nat.not_lt_zero x)
  ascends _ hne := absurd rfl hne

end UnionFind

end PointsTo
