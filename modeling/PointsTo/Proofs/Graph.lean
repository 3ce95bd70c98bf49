import PointsTo.Graph.Draft
import PointsTo.Proofs.Facts
import PointsTo.Proofs.Fault

/-! Well-formed graphs and their walks. A frozen draft is well-formed: its predecessors are the
transpose of its successors, and every edge leads from a block to a block. -/
namespace PointsTo

inductive Path {α : Type} (next : α → α → Prop) (start : α) : List α → α → Prop where
  | start : Path next start [start] start
  | step {xs x y} : Path next start xs x → next x y → Path next start (xs ++ [y]) y

namespace Graph

structure WellFormed (g : Graph) : Prop where
  edge_inside : ∀ b c, c ∈ g.successors b → b < g.size ∧ c < g.size
  transpose : ∀ b c, b ∈ g.predecessors c ↔ c ∈ g.successors b

/-- A walk along edges, with its last block. It may start at any block. -/
inductive Walk (g : Graph) : List Nat → Nat → Prop where
  | start {b} : b < g.size → Walk g [b] b
  | step {bs b c} : Walk g bs b → c ∈ g.successors b → Walk g (bs ++ [c]) c

def EntryWalk (g : Graph) : List Nat → Nat → Prop := Path (fun b c => c ∈ g.successors b) g.entry

def copiesAlong (g : Graph) (bs : List Nat) : List Copy := bs.flatMap g.copiesOf

theorem mem_copiesOf {g : Graph} {b : Nat} {c : Copy} :
    c ∈ g.copiesOf b ↔ ∃ block, g.blocks[b]? = some block ∧ c ∈ block.copies := by
  rw [copiesOf]
  cases g.blocks[b]? <;> simp

theorem not_mem_successors_empty (b c : Nat) : c ∉ empty.successors b := by
  simp [successors, empty]

theorem not_mem_predecessors_empty (b c : Nat) : c ∉ empty.predecessors b := by
  simp [predecessors, empty]

theorem empty_wellFormed : empty.WellFormed where
  edge_inside b c hc := absurd hc (not_mem_successors_empty b c)
  transpose b c := iff_of_false (not_mem_predecessors_empty c b) (not_mem_successors_empty b c)

theorem EntryWalk.walk {g : Graph} (hentry : g.entry < g.size) {bs : List Nat} {b : Nat}
    (h : g.EntryWalk bs b) : g.Walk bs b := by
  induction h with
  | start => exact .start hentry
  | step _ hc ih => exact .step ih hc

@[simp] theorem copiesAlong_singleton (g : Graph) (b : Nat) :
    g.copiesAlong [b] = g.copiesOf b := by
  simp [copiesAlong]

@[simp] theorem copiesAlong_append (g : Graph) (as bs : List Nat) :
    g.copiesAlong (as ++ bs) = g.copiesAlong as ++ g.copiesAlong bs := by
  simp [copiesAlong]

end Graph

namespace Draft

def WellFormed (d : Draft) : Prop := d.succs.size = d.size

theorem check_eq_ok {d : Draft} {b : Nat} : d.check b = .ok () ↔ b < d.size := by
  unfold check
  split <;> simp_all

theorem mem_insert_sources {ss : List Nat} {b : Nat} (preds : Array (OrderedSet Nat)) (a c : Nat) :
    a ∈ (ss.foldl (fun preds s => preds.modify s (·.insert b)) preds).getD c ∅ ↔
      a ∈ preds.getD c ∅ ∨ (a = b ∧ c ∈ ss ∧ c < preds.size) := by
  induction ss generalizing preds with
  | nil => simp
  | cons s ss ih =>
    rw [List.foldl_cons, ih]
    simp only [Array.getD_eq_getD_getElem?, Array.getElem?_modify, Array.size_modify,
      List.mem_cons]
    by_cases hs : s = c
    · subst hs
      by_cases hc : s < preds.size
      · simp only [if_pos, Array.getElem?_eq_getElem hc, Option.map_some, Option.getD_some,
          OrderedSet.mem_insert]
        grind
      · simp [hc]
    · simp [hs, Ne.symm hs]

theorem size_insert_sources (ss : List Nat) (b : Nat) (preds : Array (OrderedSet Nat)) :
    (ss.foldl (fun preds s => preds.modify s (·.insert b)) preds).size = preds.size := by
  induction ss generalizing preds with
  | nil => rfl
  | cons s ss ih => rw [List.foldl_cons, ih, Array.size_modify]

theorem mem_collect_sources (xs : List (List Nat × Nat)) (n a c : Nat) :
    let preds := xs.foldr
      (fun (ss, b) preds => ss.foldl (fun preds s => preds.modify s (·.insert b)) preds)
      (Array.replicate n (∅ : OrderedSet Nat))
    preds.size = n ∧ (a ∈ preds.getD c ∅ ↔ c < n ∧ ∃ ss, (ss, a) ∈ xs ∧ c ∈ ss) := by
  induction xs with
  | nil =>
    refine ⟨by simp, ?_⟩
    by_cases hc : c < n <;> simp [Array.getD_eq_getD_getElem?, hc]
  | cons x xs ih =>
    obtain ⟨ss, b⟩ := x
    obtain ⟨hsize, hmem⟩ := ih
    simp only [List.foldr_cons]
    refine ⟨by rw [size_insert_sources, hsize], ?_⟩
    rw [mem_insert_sources, hmem, hsize]
    simp only [List.mem_cons, Prod.mk.injEq]
    grind

/-- The predecessors of a block are the blocks that it succeeds. -/
theorem mem_predecessors {d : Draft} {a c : Nat} :
    a ∈ d.predecessors.getD c ∅ ↔ c < d.size ∧ c ∈ d.successors a := by
  rw [predecessors, (mem_collect_sources _ _ a c).2]
  refine and_congr_right fun _ => ?_
  simp only [List.mem_zipIdx_iff_getElem?, successors, Array.getD_eq_getD_getElem?,
    Array.getElem?_toList]
  cases d.succs[a]? <;> simp

theorem freeze_eq_ok {d : Draft} {entry : Nat} {exits : List Nat} {g : Graph} :
    d.freeze entry exits = .ok g ↔ (∀ ss ∈ d.succs, ∀ s ∈ ss, s < d.size) ∧
      (⟨d.blocks, d.succs.map .ofList, d.predecessors, entry, .ofList exits⟩ : Graph) = g := by
  unfold freeze
  rw [bind_eq_ok, ← Array.forIn_toList]
  constructor
  · rintro ⟨_, hchecks, hg⟩
    rw [forIn_checks] at hchecks
    refine ⟨fun ss hss s hs => ?_, pure_eq_ok.1 hg⟩
    exact check_eq_ok.1 (forIn_checks.1 (hchecks ss (Array.mem_def.1 hss)) s hs)
  · rintro ⟨hchecks, hg⟩
    refine ⟨.unit, forIn_checks.2 fun ss hss => forIn_checks.2 fun s hs => ?_, pure_eq_ok.2 hg⟩
    exact check_eq_ok.2 (hchecks ss (Array.mem_def.2 hss) s hs)

theorem close_ok {d : Draft} (h : ∀ b, ∀ c ∈ d.successors b, c < d.size) (entry : Nat) :
    ∃ g, d.close entry = .ok g := by
  refine ⟨_, freeze_eq_ok.2 ⟨fun ss hss s hs => ?_, rfl⟩⟩
  obtain ⟨b, hb⟩ := Array.mem_iff_getElem?.1 hss
  apply h b s
  rw [successors, Array.getD_eq_getD_getElem?, hb]
  exact hs

theorem mem_successors_of_freeze {d : Draft} {entry : Nat} {exits : List Nat} {g : Graph}
    (h : d.freeze entry exits = .ok g) {b c : Nat} :
    c ∈ g.successors b ↔ c ∈ d.successors b := by
  obtain ⟨_, rfl⟩ := freeze_eq_ok.1 h
  simp only [Graph.successors, successors, Array.getD_eq_getD_getElem?, Array.getElem?_map]
  cases d.succs[b]? <;> simp

theorem sizes_of_freeze {d : Draft} (hd : d.WellFormed) {entry : Nat} {exits : List Nat}
    {g : Graph} (h : d.freeze entry exits = .ok g) :
    g.succs.size = g.size ∧ g.preds.size = g.size := by
  rw [← (freeze_eq_ok.1 h).2]
  refine ⟨?_, (mem_collect_sources _ _ 0 0).1⟩
  rw [Array.size_map]
  exact hd

theorem freeze_wellFormed {d : Draft} (hd : d.WellFormed) {entry : Nat} {exits : List Nat}
    {g : Graph} (h : d.freeze entry exits = .ok g) : g.WellFormed := by
  have hsucc : ∀ b c, c ∈ g.successors b ↔ c ∈ d.successors b := by
    intro b c
    exact mem_successors_of_freeze h
  obtain ⟨hinside, rfl⟩ := freeze_eq_ok.1 h
  have hedge : ∀ b c, c ∈ d.successors b → b < d.size ∧ c < d.size := by
    intro b c hc
    rw [successors, Array.getD_eq_getD_getElem?] at hc
    cases hb : d.succs[b]? with
    | none => simp [hb] at hc
    | some ss =>
      obtain ⟨hlt, rfl⟩ := Array.getElem?_eq_some_iff.1 hb
      rw [hb] at hc
      exact ⟨hd ▸ hlt, hinside _ (Array.getElem_mem hlt) c hc⟩
  constructor
  · intro b c hc
    exact hedge b c ((hsucc b c).1 hc)
  · intro b c
    rw [hsucc, Graph.predecessors, mem_predecessors]
    exact ⟨And.right, fun hc => ⟨(hedge b c hc).2, hc⟩⟩

section Building

variable {d : Draft} {kind : BlockKind} {copies : List Copy} {mark : Option TestMark}
  {source target b x : Nat} {targets : List Nat}

@[simp] theorem size_addBlock : (d.addBlock kind copies mark).size = d.size + 1 := by
  simp [addBlock, size]

@[simp] theorem successors_addBlock :
    (d.addBlock kind copies mark).successors b = d.successors b := by
  simp only [addBlock, successors, Array.getD_eq_getD_getElem?, Array.getElem?_push]
  split
  · next h => simp [h]
  · rfl

theorem getElem?_addBlock : (d.addBlock kind copies mark).blocks[b]? =
    if b = d.size then some ⟨b, kind, copies, mark⟩ else d.blocks[b]? := by
  rw [addBlock, Array.getElem?_push]
  by_cases hb : b = d.size
  · rw [if_pos hb, if_pos (show b = d.blocks.size from hb), hb]
    rfl
  · rw [if_neg hb, if_neg (show b ≠ d.blocks.size from hb)]

@[simp] theorem wellFormed_addBlock :
    (d.addBlock kind copies mark).WellFormed ↔ d.WellFormed := by
  simp [addBlock, WellFormed, size]

@[simp] theorem blocks_link : (d.link source target).blocks = d.blocks := rfl

@[simp] theorem size_link : (d.link source target).size = d.size := rfl

@[simp] theorem wellFormed_link : (d.link source target).WellFormed ↔ d.WellFormed := by
  simp [link, WellFormed, size]

theorem mem_successors_link (hd : d.WellFormed) (hs : source < d.size) :
    x ∈ (d.link source target).successors b ↔
      x ∈ d.successors b ∨ (b = source ∧ x = target) := by
  have hlt : source < d.succs.size := hd ▸ hs
  simp only [link, successors, Array.getD_eq_getD_getElem?, Array.getElem?_modify]
  by_cases hb : source = b
  · subst hb
    simp only [if_true, Array.getElem?_eq_getElem hlt, Option.map_some, Option.getD_some, true_and]
    split <;> grind
  · simp [hb, Ne.symm hb]

@[simp] theorem blocks_linkAll : (d.linkAll source targets).blocks = d.blocks := by
  induction targets generalizing d with
  | nil => rfl
  | cons t ts ih => exact ih

@[simp] theorem size_linkAll : (d.linkAll source targets).size = d.size := by simp [size]

@[simp] theorem wellFormed_linkAll : (d.linkAll source targets).WellFormed ↔ d.WellFormed := by
  induction targets generalizing d with
  | nil => rfl
  | cons t ts ih => exact ih.trans wellFormed_link

theorem mem_successors_linkAll (hd : d.WellFormed) (hs : source < d.size) :
    x ∈ (d.linkAll source targets).successors b ↔
      x ∈ d.successors b ∨ (b = source ∧ x ∈ targets) := by
  induction targets generalizing d with
  | nil => simp [linkAll]
  | cons t ts ih =>
    have hrest := ih (d := d.link source t) (wellFormed_link.2 hd) hs
    rw [mem_successors_link hd hs] at hrest
    refine hrest.trans ?_
    rw [List.mem_cons]
    grind

@[simp] theorem blocks_unlink : (d.unlink b).blocks = d.blocks := rfl

@[simp] theorem size_unlink : (d.unlink b).size = d.size := rfl

@[simp] theorem wellFormed_unlink : (d.unlink b).WellFormed ↔ d.WellFormed := by
  simp [unlink, WellFormed, size]

theorem successors_unlink :
    (d.unlink source).successors b = if b = source then [] else d.successors b := by
  simp only [unlink, successors, Array.getD_eq_getD_getElem?, Array.getElem?_modify]
  by_cases hb : source = b
  · subst hb
    cases d.succs[source]? <;> simp
  · simp [hb, Ne.symm hb]

theorem successors_of_size_le (hd : d.WellFormed) (hb : d.size ≤ b) : d.successors b = [] := by
  have hge : d.succs.size ≤ b := hd ▸ hb
  rw [successors, Array.getD_eq_getD_getElem?, Array.getElem?_eq_none hge]
  rfl

def Simple (d : Draft) : Prop := ∀ b, (d.successors b).Nodup

theorem simple_empty : (∅ : Draft).Simple := fun _ => List.nodup_nil

theorem Simple.addBlock (h : d.Simple) : (d.addBlock kind copies mark).Simple := by
  intro b
  rw [successors_addBlock]
  exact h b

theorem Simple.unlink (h : d.Simple) : (d.unlink source).Simple := by
  intro b
  rw [successors_unlink]
  split
  · exact List.nodup_nil
  · exact h b

theorem Simple.link (h : d.Simple) : (d.link source target).Simple := by
  intro b
  have hb := h b
  simp only [Draft.link, successors, Array.getD_eq_getD_getElem?, Array.getElem?_modify] at hb ⊢
  by_cases hs : source = b
  · subst hs
    cases hss : d.succs[source]? with
    | none => simp
    | some ss =>
      rw [hss] at hb
      by_cases ht : target ∈ ss
      · simpa [ht] using hb
      · have : (ss ++ [target]).Nodup := by
          rw [List.nodup_append]
          refine ⟨hb, by simp, ?_⟩
          rintro x hx y hy rfl
          exact ht (List.mem_singleton.1 hy ▸ hx)
        simpa [ht] using this
  · simpa [hs] using hb

theorem simple_foldl {α : Type} {f : Draft → α → Draft} {xs : List α}
    (hf : ∀ d x, d.Simple → (f d x).Simple) (h : d.Simple) : (xs.foldl f d).Simple := by
  induction xs generalizing d with
  | nil => exact h
  | cons x xs ih => exact ih (hf d x h)

theorem Simple.linkAll (h : d.Simple) : (d.linkAll source targets).Simple :=
  simple_foldl (fun _ _ hd => hd.link) h

section Links

variable {α : Type} {f : α → Nat} {g : α → List Nat} {xs : List α}

@[simp] theorem blocks_foldl_linkAll :
    (xs.foldl (fun d x => d.linkAll (f x) (g x)) d).blocks = d.blocks := by
  induction xs generalizing d with
  | nil => rfl
  | cons x xs ih => exact ih.trans blocks_linkAll

@[simp] theorem size_foldl_linkAll :
    (xs.foldl (fun d x => d.linkAll (f x) (g x)) d).size = d.size := by simp [size]

@[simp] theorem wellFormed_foldl_linkAll :
    (xs.foldl (fun d x => d.linkAll (f x) (g x)) d).WellFormed ↔ d.WellFormed := by
  induction xs generalizing d with
  | nil => rfl
  | cons x xs ih => exact ih.trans wellFormed_linkAll

theorem mem_successors_foldl_linkAll (hd : d.WellFormed) (hs : ∀ x ∈ xs, f x < d.size) {y : Nat} :
    y ∈ (xs.foldl (fun d x => d.linkAll (f x) (g x)) d).successors b ↔
      y ∈ d.successors b ∨ ∃ x ∈ xs, b = f x ∧ y ∈ g x := by
  induction xs generalizing d with
  | nil => simp
  | cons x xs ih =>
    have hrest := ih (d := d.linkAll (f x) (g x)) (wellFormed_linkAll.2 hd)
      fun z hz => by simpa using hs z (List.mem_cons_of_mem x hz)
    rw [List.foldl_cons, hrest, mem_successors_linkAll hd (hs x List.mem_cons_self),
      List.exists_mem_cons_iff, or_assoc]

end Links

end Building

end Draft

end PointsTo
