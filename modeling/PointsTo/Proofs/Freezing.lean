import Mathlib.Data.List.Destutter
import Mathlib.Data.Set.Card
import PointsTo.Proofs.Graph

/-! Drafts over whole histories, and the graphs they freeze to. Whatever was linked and unlinked in
whatever order, the frozen lists are ascending and have each edge once in either direction. As long
as there are words of 32 bits for the numbers of all blocks, cutting them to words changes
nothing. -/
namespace PointsTo

theorem OrderedSet.toList_eq {s : OrderedSet Nat} {xs : List Nat} (hxs : xs.Pairwise (· < ·))
    (h : ∀ x, x ∈ s ↔ x ∈ xs) : s.toList = xs := by
  have hascending : xs.Pairwise (fun a b => compare a b = .lt) := hxs.imp Nat.compare_eq_lt.2
  have hsame : s = ⟨xs, hascending⟩ := OrderedSet.ext h
  rw [hsame]

theorem OrderedSet.pairwise_lt (s : OrderedSet Nat) : s.toList.Pairwise (· < ·) :=
  s.ascending.imp Nat.compare_eq_lt.1

def arrange (xs : List Nat) : List Nat := xs.mergeSort.destutter (· ≠ ·)

section Arranging

variable {xs : List Nat} {x a : Nat}

theorem mem_destutter'_ne : x ∈ xs.destutter' (· ≠ ·) a ↔ x ∈ a :: xs := by
  induction xs generalizing a with
  | nil => rfl
  | cons b xs ih =>
    by_cases hab : a = b
    · rw [List.destutter'_cons_neg _ (not_not.2 hab), ih, hab]
      simp
    · rw [List.destutter'_cons_pos _ hab, List.mem_cons, ih, List.mem_cons (b := a)]

theorem destutter'_ascending (h : (a :: xs).Pairwise (· ≤ ·)) :
    (xs.destutter' (· ≠ ·) a).Pairwise (· < ·) := by
  induction xs generalizing a with
  | nil => exact List.pairwise_singleton _ a
  | cons b xs ih =>
    obtain ⟨hle, hxs⟩ := List.pairwise_cons.1 h
    by_cases hab : a = b
    · rw [List.destutter'_cons_neg _ (not_not.2 hab), hab]
      exact ih hxs
    · rw [List.destutter'_cons_pos _ hab]
      refine List.pairwise_cons.2 ⟨fun y hy => ?_, ih hxs⟩
      have hlt : a < b := Nat.lt_of_le_of_ne (hle b List.mem_cons_self) hab
      rcases List.mem_cons.1 (mem_destutter'_ne.1 hy) with rfl | hy
      · exact hlt
      · exact Nat.lt_of_lt_of_le hlt ((List.pairwise_cons.1 hxs).1 y hy)

theorem mem_arrange : x ∈ arrange xs ↔ x ∈ xs := by
  rw [arrange, ← List.mem_mergeSort (l := xs)]
  cases xs.mergeSort with
  | nil => rfl
  | cons a ys => exact mem_destutter'_ne

theorem arrange_eq_nil : arrange xs = [] ↔ xs = [] := by
  simp only [List.eq_nil_iff_forall_not_mem, mem_arrange]

theorem arrange_ascending (xs : List Nat) : (arrange xs).Pairwise (· < ·) := by
  have hsorted : xs.mergeSort.Pairwise (· ≤ ·) := List.pairwise_mergeSort' (· ≤ ·) xs
  rw [arrange]
  cases hys : xs.mergeSort with
  | nil => exact .nil
  | cons a ys => exact destutter'_ascending (hys ▸ hsorted)

theorem toList_ofList (xs : List Nat) : (OrderedSet.ofList xs).toList = arrange xs :=
  OrderedSet.toList_eq (arrange_ascending xs) fun _ => OrderedSet.mem_ofList.trans mem_arrange.symm

end Arranging

inductive Edit where
  | block (kind : BlockKind) (copies : List Copy) (mark : Option TestMark)
  | link (source target : Nat)
  | unlink (b : Nat)
  deriving DecidableEq, Repr

/-- The blocks were linked, and the source was not unlinked since. -/
def Linked (es : List Edit) (b c : Nat) : Prop :=
  ∃ before after, es = before ++ .link b c :: after ∧ .unlink b ∉ after

namespace Draft

def apply (d : Draft) : Edit → Draft
  | .block kind copies mark => d.addBlock kind copies mark
  | .link source target => d.link source target
  | .unlink b => d.unlink b

def run (d : Draft) (es : List Edit) : Draft := es.foldl apply d

def Names (d : Draft) : Edit → Prop
  | .block .. => True
  | .link source target => source < d.size ∧ target < d.size
  | .unlink b => b < d.size

instance (d : Draft) : (e : Edit) → Decidable (d.Names e)
  | .block .. => isTrue trivial
  | .link .. => inferInstanceAs (Decidable (_ ∧ _))
  | .unlink _ => inferInstanceAs (Decidable (_ < _))

def Allows (d : Draft) : List Edit → Prop
  | [] => True
  | e :: es => d.Names e ∧ (d.apply e).Allows es

instance decidableAllows : (d : Draft) → (es : List Edit) → Decidable (d.Allows es)
  | _, [] => isTrue trivial
  | d, e :: es =>
    have := decidableAllows (d.apply e) es
    inferInstanceAs (Decidable (_ ∧ _))

/-- Arranges the successors of a block, and puts the block at the end of the list of each. -/
def pushSource (preds : Array (List Nat)) (row : List Nat × Nat) : Array (List Nat) :=
  (arrange row.1).foldl (fun preds s => preds.modify s (· ++ [row.2])) preds

def sources (d : Draft) : Array (List Nat) :=
  d.succs.toList.zipIdx.foldl pushSource (.replicate d.size [])

variable {d : Draft} {es : List Edit} {e : Edit} {b c : Nat} {ss : List Nat}
  {preds : Array (List Nat)} {rows : List (List Nat × Nat)}

theorem getD_push_sources (hss : ss.Nodup) (hc : c < preds.size) :
    (ss.foldl (fun preds s => preds.modify s (· ++ [b])) preds).getD c [] =
      preds.getD c [] ++ if c ∈ ss then [b] else [] := by
  induction ss generalizing preds with
  | nil => simp
  | cons s ss ih =>
    obtain ⟨hs, hss⟩ := List.nodup_cons.1 hss
    rw [List.foldl_cons, ih hss (by rwa [Array.size_modify])]
    simp only [Array.getD_eq_getD_getElem?, Array.getElem?_modify, Array.getElem?_eq_getElem hc]
    by_cases hsc : s = c
    · subst hsc
      simp [hs]
    · simp [hsc, Ne.symm hsc]

theorem size_pushSource (preds : Array (List Nat)) (row : List Nat × Nat) :
    (pushSource preds row).size = preds.size := by
  rw [pushSource]
  induction arrange row.1 generalizing preds with
  | nil => rfl
  | cons s ss ih => rw [List.foldl_cons, ih, Array.size_modify]

/-- The list of a block gets the blocks that it succeeds, in the order of the rows. -/
theorem getD_foldl_pushSource (hc : c < preds.size) : (rows.foldl pushSource preds).getD c [] =
    preds.getD c [] ++ (rows.filter fun row => c ∈ row.1).map (·.2) := by
  induction rows generalizing preds with
  | nil => simp
  | cons row rows ih =>
    have hnodup : (arrange row.1).Nodup := (arrange_ascending row.1).imp Nat.ne_of_lt
    rw [List.foldl_cons, ih (by rwa [size_pushSource]), pushSource, getD_push_sources hnodup hc,
      List.append_assoc]
    simp only [mem_arrange]
    by_cases hrow : c ∈ row.1
    · simp [hrow]
    · simp [hrow]

theorem zipIdx_ascending {α : Type} (xs : List α) : xs.zipIdx.Pairwise (·.2 < ·.2) := by
  rw [← List.pairwise_map (f := Prod.snd), List.zipIdx_map_snd]
  exact List.pairwise_lt_range'

theorem size_sources (d : Draft) : d.sources.size = d.size := by
  have hsize : ∀ preds, (d.succs.toList.zipIdx.foldl pushSource preds).size = preds.size := by
    induction d.succs.toList.zipIdx with
    | nil => exact fun preds => rfl
    | cons row rows ih => exact fun preds => (ih _).trans (size_pushSource preds row)
  rw [sources, hsize, Array.size_replicate]

theorem sources_eq (hc : c < d.size) : d.sources.getD c [] =
    (d.succs.toList.zipIdx.filter fun row => c ∈ row.1).map (·.2) := by
  rw [sources, getD_foldl_pushSource (by simpa using hc)]
  simp [Array.getD_eq_getD_getElem?, hc]

/-- The blocks are taken in order, so the lists that they fill are ascending. -/
theorem toList_predecessors (d : Draft) (c : Nat) :
    (d.predecessors.getD c ∅).toList = d.sources.getD c [] := by
  by_cases hc : c < d.size
  · rw [sources_eq hc]
    refine OrderedSet.toList_eq ?_ fun b => ?_
    · exact List.pairwise_map.2 ((zipIdx_ascending _).filter _)
    · rw [mem_predecessors]
      simp only [hc, true_and, List.mem_map, List.mem_filter, decide_eq_true_eq,
        List.mem_zipIdx_iff_getElem?, successors, Array.getD_eq_getD_getElem?,
        Array.getElem?_toList]
      constructor
      · intro hmem
        cases hrow : d.succs[b]? with
        | none => simp [hrow] at hmem
        | some ss => exact ⟨(ss, b), ⟨hrow, by simpa [hrow] using hmem⟩, rfl⟩
      · rintro ⟨row, ⟨hrow, hmem⟩, rfl⟩
        rwa [hrow]
  · have hnone : d.sources.getD c [] = [] := by
      rw [Array.getD_eq_getD_getElem?,
        Array.getElem?_eq_none (d.size_sources.trans_le (Nat.le_of_not_lt hc))]
      rfl
    rw [hnone]
    refine OrderedSet.toList_eq .nil fun b => ?_
    rw [mem_predecessors]
    exact iff_of_false (fun hmem => hc hmem.1) List.not_mem_nil

theorem linked_concat : Linked (es ++ [e]) b c ↔
    e = .link b c ∨ (Linked es b c ∧ e ≠ .unlink b) := by
  constructor
  · rintro ⟨before, after, heq, hafter⟩
    rcases List.eq_nil_or_concat after with rfl | ⟨after, e', rfl⟩
    · obtain ⟨-, hlast⟩ := List.append_inj' heq rfl
      exact .inl (List.singleton_inj.1 hlast)
    · have heq' : es ++ [e] = (before ++ .link b c :: after) ++ [e'] := by simpa using heq
      obtain ⟨hes, hlast⟩ := List.append_inj' heq' rfl
      rw [List.singleton_inj.1 hlast]
      rw [List.concat_eq_append, List.mem_append, not_or, List.mem_singleton] at hafter
      exact .inr ⟨⟨before, after, hes, hafter.1⟩, Ne.symm hafter.2⟩
  · rintro (rfl | ⟨⟨before, after, rfl, hafter⟩, hne⟩)
    · exact ⟨es, [], rfl, List.not_mem_nil⟩
    · refine ⟨before, after ++ [e], by simp, ?_⟩
      rw [List.mem_append, not_or, List.mem_singleton]
      exact ⟨hafter, Ne.symm hne⟩

structure Follows (es : List Edit) (d : Draft) : Prop where
  wellFormed : d.WellFormed
  ids : ∀ (b : Nat) (block : Block), d.blocks[b]? = some block → block.id = b
  simple : d.Simple
  linked : ∀ b c, c ∈ d.successors b ↔ Linked es b c
  inside : ∀ b, ∀ c ∈ d.successors b, c < d.size

namespace Follows

theorem empty : Follows [] ∅ where
  wellFormed := rfl
  ids _ _ hb := by cases hb
  simple := simple_empty
  linked _ _ := iff_of_false List.not_mem_nil fun ⟨_, _, heq, _⟩ => by simp at heq
  inside _ _ hc := by cases hc

theorem addBlock (h : Follows es d) (kind : BlockKind) (copies : List Copy)
    (mark : Option TestMark) :
    Follows (es ++ [.block kind copies mark]) (d.addBlock kind copies mark) where
  wellFormed := wellFormed_addBlock.2 h.wellFormed
  ids b block hb := by
    rw [getElem?_addBlock] at hb
    split at hb
    · cases hb
      rfl
    · exact h.ids b block hb
  simple := h.simple.addBlock
  linked b c := by
    rw [successors_addBlock, h.linked, linked_concat]
    simp
  inside b c hc := by
    rw [successors_addBlock] at hc
    rw [size_addBlock]
    exact Nat.lt_succ_of_lt (h.inside b c hc)

theorem link (h : Follows es d) {source target : Nat} (hs : source < d.size)
    (ht : target < d.size) : Follows (es ++ [.link source target]) (d.link source target) where
  wellFormed := wellFormed_link.2 h.wellFormed
  ids := h.ids
  simple := h.simple.link
  linked b c := by
    rw [mem_successors_link h.wellFormed hs, h.linked, linked_concat]
    simp only [Edit.link.injEq]
    grind
  inside b c hc := by
    rcases (mem_successors_link h.wellFormed hs).1 hc with hold | ⟨-, rfl⟩
    · exact h.inside b c hold
    · exact ht

theorem unlink (h : Follows es d) (a : Nat) : Follows (es ++ [.unlink a]) (d.unlink a) where
  wellFormed := wellFormed_unlink.2 h.wellFormed
  ids := h.ids
  simple := h.simple.unlink
  linked b c := by
    rw [successors_unlink, linked_concat]
    by_cases hb : b = a
    · simp [hb]
    · simp [hb, h.linked, Ne.symm hb]
  inside b c hc := by
    rw [successors_unlink] at hc
    split at hc
    · cases hc
    · exact h.inside b c hc

theorem apply (h : Follows es d) (he : d.Names e) : Follows (es ++ [e]) (d.apply e) := by
  cases e with
  | block kind copies mark => exact h.addBlock kind copies mark
  | link source target => exact h.link he.1 he.2
  | unlink b => exact h.unlink b

theorem run (h : Follows es d) {later : List Edit} (hlater : d.Allows later) :
    Follows (es ++ later) (d.run later) := by
  induction later generalizing es d with
  | nil =>
    rw [List.append_nil]
    exact h
  | cons e later ih =>
    have hrest := ih (h.apply hlater.1) hlater.2
    rwa [List.append_assoc, List.singleton_append] at hrest

theorem freeze_ok (h : Follows es d) (entry : Nat) (exits : List Nat) :
    d.freeze entry exits =
      .ok ⟨d.blocks, d.succs.map .ofList, d.predecessors, entry, .ofList exits⟩ := by
  refine freeze_eq_ok.2 ⟨fun ss hss s hs => ?_, rfl⟩
  obtain ⟨b, hb⟩ := Array.mem_iff_getElem?.1 hss
  apply h.inside b s
  rw [successors, Array.getD_eq_getD_getElem?, hb]
  exact hs

end Follows

end Draft

namespace Graph

variable {g : Graph}

def edges (g : Graph) : List (Nat × Nat) :=
  g.succs.toList.zipIdx.flatMap fun row => row.1.toList.map (row.2, ·)

theorem mem_edges {e : Nat × Nat} : e ∈ g.edges ↔ e.2 ∈ g.successors e.1 := by
  simp only [edges, List.mem_flatMap, List.mem_zipIdx_iff_getElem?, Array.getElem?_toList,
    List.mem_map, successors, Array.getD_eq_getD_getElem?]
  constructor
  · rintro ⟨row, hrow, c, hc, rfl⟩
    rw [hrow]
    exact hc
  · intro hmem
    cases hrow : g.succs[e.1]? with
    | none => simp [hrow] at hmem
    | some ss =>
      rw [hrow] at hmem
      exact ⟨(ss, e.1), hrow, e.2, hmem, rfl⟩

theorem edges_nodup (g : Graph) : g.edges.Nodup := by
  refine List.pairwise_flatMap.2 ⟨fun row _ => ?_, ?_⟩
  · refine List.pairwise_map.2 (row.1.pairwise_lt.imp fun hlt heq => ?_)
    exact absurd (Prod.mk.inj heq).2 (Nat.ne_of_lt hlt)
  · refine (Draft.zipIdx_ascending _).imp fun hlt x hx y hy heq => ?_
    obtain ⟨_, -, rfl⟩ := List.mem_map.1 hx
    obtain ⟨_, -, rfl⟩ := List.mem_map.1 hy
    exact absurd (Prod.mk.inj heq).1 (Nat.ne_of_lt hlt)

theorem length_edges (g : Graph) : g.edges.length = g.edgeCount := by
  have hrows : g.succs.toList.zipIdx.map (·.1) = g.succs.toList := List.zipIdx_map_fst 0 _
  rw [edges, edgeCount, List.length_flatMap, List.length_flatMap]
  conv_rhs => rw [← hrows, List.map_map]
  simp only [List.length_map]
  rfl

theorem edgeCount_eq (g : Graph) :
    g.edgeCount = {e : Nat × Nat | e.2 ∈ g.successors e.1}.ncard := by
  have hset : {e : Nat × Nat | e.2 ∈ g.successors e.1} = ↑g.edges.toFinset := by
    ext e
    rw [Finset.mem_coe, List.mem_toFinset, mem_edges]
    rfl
  rw [hset, Set.ncard_coe_finset, List.toFinset_card_of_nodup g.edges_nodup, length_edges]

end Graph

namespace Draft

variable {d : Draft} {es : List Edit} {g : Graph}

structure FreezesTo (es : List Edit) (d : Draft) (entry : Nat) (exits : List Nat) (g : Graph) :
    Prop where
  blocks : g.blocks = d.blocks
  lists : g.succs.size = g.size ∧ g.preds.size = g.size
  entry : g.entry = entry
  /-- Successors are sorted, and equal neighbours dropped. -/
  successors : ∀ b, (g.successors b).toList = arrange (d.successors b)
  /-- Predecessors are filled in block by block. -/
  predecessors : ∀ b, (g.predecessors b).toList = d.sources.getD b []
  exits : g.exits.toList = arrange exits
  ascending : ∀ b, (g.successors b).toList.Pairwise (· < ·) ∧
    (g.predecessors b).toList.Pairwise (· < ·)
  /-- The edges are those of the draft, and those that were linked and not unlinked since. -/
  edges : ∀ b c, (c ∈ g.successors b ↔ c ∈ d.successors b) ∧ (c ∈ g.successors b ↔ Linked es b c)
  transpose : ∀ b c, b ∈ g.predecessors c ↔ c ∈ g.successors b
  /-- An edge is there once in either direction. -/
  once : ∀ b c, c ∈ g.successors b →
    (g.successors b).toList.count c = 1 ∧ (g.predecessors c).toList.count b = 1
  inside : ∀ b c, c ∈ g.successors b → b < g.size ∧ c < g.size
  edgeCount : g.edgeCount = {e : Nat × Nat | Linked es e.1 e.2}.ncard

theorem Follows.freezesTo (h : Follows es d) {entry : Nat} {exits : List Nat}
    (hg : d.freeze entry exits = .ok g) : FreezesTo es d entry exits g := by
  have hwf := freeze_wellFormed h.wellFormed hg
  have hold : ∀ b c, c ∈ g.successors b ↔ c ∈ d.successors b :=
    fun b c => mem_successors_of_freeze hg
  have hlinked : ∀ b c, c ∈ g.successors b ↔ Linked es b c :=
    fun b c => (hold b c).trans (h.linked b c)
  have hsources : ∀ b, (g.predecessors b).toList = d.sources.getD b [] := by
    intro b
    obtain ⟨-, rfl⟩ := freeze_eq_ok.1 hg
    exact d.toList_predecessors b
  constructor
  case blocks => rw [← (freeze_eq_ok.1 hg).2]
  case lists => exact sizes_of_freeze h.wellFormed hg
  case entry => rw [← (freeze_eq_ok.1 hg).2]
  case successors =>
    intro b
    refine OrderedSet.toList_eq (arrange_ascending _) fun c => ?_
    rw [hold, mem_arrange]
  case predecessors => exact hsources
  case exits =>
    rw [← (freeze_eq_ok.1 hg).2]
    exact toList_ofList exits
  case ascending => exact fun b => ⟨(g.successors b).pairwise_lt, (g.predecessors b).pairwise_lt⟩
  case edges => exact fun b c => ⟨hold b c, hlinked b c⟩
  case transpose => exact hwf.transpose
  case once =>
    intro b c hc
    have hb := (hwf.transpose b c).2 hc
    exact ⟨List.count_eq_one_of_mem ((g.successors b).pairwise_lt.imp Nat.ne_of_lt) hc,
      List.count_eq_one_of_mem ((g.predecessors c).pairwise_lt.imp Nat.ne_of_lt) hb⟩
  case inside => exact hwf.edge_inside
  case edgeCount =>
    rw [g.edgeCount_eq]
    simp only [hlinked]

/-- What holds after the changes `es`. -/
structure Freezes (es : List Edit) (d : Draft) : Prop where
  /-- The numbers of the blocks are their positions. -/
  ids : ∀ (b : Nat) (block : Block), d.blocks[b]? = some block → block.id = b
  /-- No block is linked twice to the same one. -/
  simple : ∀ b, (d.successors b).Nodup
  freezes : ∀ entry exits, ∃ g, d.freeze entry exits = .ok g ∧ FreezesTo es d entry exits g
  /-- When a draft is closed, the exits are the blocks without successors. -/
  closes : ∀ entry, ∃ g exits, d.close entry = .ok g ∧ FreezesTo es d entry exits g ∧
    ∀ b, b ∈ g.exits ↔ b < g.size ∧ (g.successors b).toList = []

/-- Whatever changes were made to blocks that were there, the draft freezes to a graph whose lists
are ascending and have the edges of the draft, each once in either direction. -/
theorem run_freezes (es : List Edit) (h : (∅ : Draft).Allows es) :
    Freezes es ((∅ : Draft).run es) := by
  have hfollows : Follows es ((∅ : Draft).run es) := Follows.empty.run h
  generalize (∅ : Draft).run es = d at hfollows
  constructor
  case ids => exact hfollows.ids
  case simple => exact hfollows.simple
  case freezes =>
    intro entry exits
    exact ⟨_, hfollows.freeze_ok entry exits, hfollows.freezesTo (hfollows.freeze_ok entry exits)⟩
  case closes =>
    intro entry
    have hclose := hfollows.freeze_ok entry
      ((List.range d.size).filter fun b => (d.successors b).isEmpty)
    have hto := hfollows.freezesTo hclose
    refine ⟨_, _, hclose, hto, fun b => ?_⟩
    rw [hto.successors, OrderedSet.mem_ofList, List.mem_filter, List.mem_range,
      List.isEmpty_iff, arrange_eq_nil]
    rfl

def relinking : List Edit :=
  [.block (.enter 0 0) [] none, .block (.body 0 0 1 0) [] none, .block (.leave 0 0) [] none,
    .link 0 2, .link 1 2, .link 0 1, .link 0 1, .unlink 0, .link 0 2, .link 0 1]

theorem relinking_freezes : (∅ : Draft).Allows relinking ∧
    Freezes relinking ((∅ : Draft).run relinking) ∧
    ((∅ : Draft).run relinking).succs = #[[2, 1], [2], []] ∧
    ((∅ : Draft).run relinking).close 0 = .ok
      ⟨#[⟨0, .enter 0 0, [], none⟩, ⟨1, .body 0 0 1 0, [], none⟩, ⟨2, .leave 0 0, [], none⟩],
        #[.ofList [1, 2], .ofList [2], ∅], #[∅, .ofList [0], .ofList [0, 1]], 0, .ofList [2]⟩ := by
  have hallows : (∅ : Draft).Allows relinking := by decide
  exact ⟨hallows, run_freezes relinking hallows, by decide +kernel, by decide +kernel⟩

section Words

/-- A change to a draft that keeps the numbers of its blocks as words of 32 bits. -/
def applyCut (d : Draft) : Edit → Draft
  | .block kind copies mark =>
    ⟨d.blocks.push ⟨(UInt32.ofNat d.size).toNat, kind, copies, mark⟩, d.succs.push []⟩
  | .link source target => d.link source target
  | .unlink b => d.unlink b

def runCut (d : Draft) (es : List Edit) : Draft := es.foldl applyCut d

def sourcesCut (d : Draft) : Array (List Nat) :=
  d.succs.toList.zipIdx.foldl
    (fun preds row => pushSource preds (row.1, (UInt32.ofNat row.2).toNat)) (.replicate d.size [])

def sinksBelow (d : Draft) (size : Nat) : List Nat :=
  (List.range size).filter fun b => (d.successors b).isEmpty

theorem size_le_run (d : Draft) (es : List Edit) : d.size ≤ (d.run es).size := by
  induction es generalizing d with
  | nil => exact Nat.le_refl _
  | cons e es ih =>
    refine Nat.le_trans ?_ (ih (d.apply e))
    cases e with
    | block kind copies mark => exact size_addBlock ▸ Nat.le_succ d.size
    | link source target => exact Nat.le_refl _
    | unlink b => exact Nat.le_refl _

theorem runCut_eq (h : (d.run es).size ≤ 2 ^ 32) : d.runCut es = d.run es := by
  induction es generalizing d with
  | nil => rfl
  | cons e es ih =>
    have happly : d.applyCut e = d.apply e := by
      cases e with
      | block kind copies mark =>
        have hlt : d.size < 2 ^ 32 := by
          have hle := size_le_run (d.addBlock kind copies mark) es
          rw [size_addBlock] at hle
          exact Nat.lt_of_lt_of_le hle h
        rw [applyCut, UInt32.toNat_ofNat_of_lt' hlt]
        rfl
      | link source target => rfl
      | unlink b => rfl
    change (d.applyCut e).runCut es = _
    rw [happly]
    exact ih h

theorem sourcesCut_eq (hd : d.WellFormed) (h : d.size ≤ 2 ^ 32) : d.sourcesCut = d.sources := by
  have hrows : ∀ row ∈ d.succs.toList.zipIdx, (UInt32.ofNat row.2).toNat = row.2 := by
    intro row hrow
    have hlt : row.2 < d.succs.size := by simpa using (List.mem_zipIdx hrow).2.1
    exact UInt32.toNat_ofNat_of_lt' (Nat.lt_of_lt_of_le hlt (hd ▸ h))
  rw [sourcesCut, sources]
  generalize Array.replicate d.size [] = preds
  generalize d.succs.toList.zipIdx = rows at hrows ⊢
  induction rows generalizing preds with
  | nil => rfl
  | cons row rows ih =>
    obtain ⟨hrow, hrows⟩ := List.forall_mem_cons.1 hrows
    rw [List.foldl_cons, List.foldl_cons, hrow]
    exact ih _ hrows

/-- As long as there are words for all blocks and for their number, nothing is cut: neither the
number of a block nor a predecessor nor an exit. -/
theorem run_uncut (es : List Edit) (h : (∅ : Draft).Allows es)
    (hsize : ((∅ : Draft).run es).size < 2 ^ 32) :
    let d := (∅ : Draft).run es
    (∅ : Draft).runCut es = d ∧ d.sourcesCut = d.sources ∧
      ∀ entry, d.freeze entry (d.sinksBelow (UInt32.ofNat d.size).toNat) = d.close entry := by
  intro d
  have hfollows : Follows es d := Follows.empty.run h
  refine ⟨runCut_eq (Nat.le_of_lt hsize), ?_, fun entry => ?_⟩
  · exact sourcesCut_eq hfollows.wellFormed (Nat.le_of_lt hsize)
  · rw [UInt32.toNat_ofNat_of_lt' hsize]
    rfl

end Words

end Draft

end PointsTo
