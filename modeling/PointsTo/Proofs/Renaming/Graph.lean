import PointsTo.Inline
import PointsTo.Proofs.FieldCopies
import PointsTo.Proofs.Graph
import PointsTo.Proofs.Renaming.Table

/-! Renaming methods in a graph. Only the kinds of blocks name methods: copies and marks are between
numbers, and edges between positions. Inserting field copies asks the table what numbers stand for,
but only whether variables are the same. -/
namespace PointsTo

variable {σ : Renaming}

def BlockKind.rename (σ : Renaming) : BlockKind → BlockKind
  | body m first last depth => body (σ m) first last depth
  | enter callee depth => enter (σ callee) depth
  | leave callee depth => leave (σ callee) depth

@[simp] theorem BlockKind.rename_refl (k : BlockKind) : k.rename (.refl _) = k := by
  cases k <;> rfl

def Block.rename (σ : Renaming) (b : Block) : Block := { b with kind := b.kind.rename σ }

@[simp] theorem Block.rename_refl (b : Block) : b.rename (.refl _) = b := by
  simp [rename]

namespace Draft

def rename (σ : Renaming) (d : Draft) : Draft := ⟨d.blocks.map (Block.rename σ), d.succs⟩

variable (d : Draft)

@[simp] theorem rename_refl : d.rename (.refl _) = d := by
  have hid : Block.rename (.refl _) = id := funext Block.rename_refl
  simp [rename, hid]

@[simp] theorem rename_empty : (∅ : Draft).rename σ = ∅ := by
  have hblocks : (#[] : Array Block).map (Block.rename σ) = #[] := Array.map_empty
  exact congrArg (Draft.mk · #[]) hblocks

@[simp] theorem size_rename : (d.rename σ).size = d.size := Array.size_map

theorem addBlock_rename (kind : BlockKind) (copies : List Copy) (mark : Option TestMark) :
    (d.rename σ).addBlock (kind.rename σ) copies mark = (d.addBlock kind copies mark).rename σ := by
  simp [addBlock, rename, Block.rename]

theorem successors_rename (b : Nat) : (d.rename σ).successors b = d.successors b := rfl

theorem link_rename (source target : Nat) :
    (d.rename σ).link source target = (d.link source target).rename σ := rfl

theorem unlink_rename (b : Nat) : (d.rename σ).unlink b = (d.unlink b).rename σ := rfl

theorem linkAll_rename (source : Nat) (targets : List Nat) :
    (d.rename σ).linkAll source targets = (d.linkAll source targets).rename σ :=
  List.foldl_hom (Draft.rename σ) fun d target => d.link_rename source target

theorem addBlocks_rename (m : MethodId) (depth : Nat) (blocks : List LocalBlock) :
    Inliner.addBlocks (σ m) depth blocks (d.rename σ) =
      (Inliner.addBlocks m depth blocks d).rename σ := by
  have hblocks : blocks.foldl (fun d b => d.addBlock (.body (σ m) b.first b.last depth) b.copies
      b.mark) (d.rename σ) = (blocks.foldl (fun d b =>
        d.addBlock (.body m b.first b.last depth) b.copies b.mark) d).rename σ :=
    List.foldl_hom (Draft.rename σ) fun d b => d.addBlock_rename (.body m b.first b.last depth) _ _
  unfold Inliner.addBlocks
  dsimp only
  rw [hblocks, size_rename]
  exact List.foldl_hom (Draft.rename σ) fun d bi => d.linkAll_rename _ _

end Draft

def Graph.rename (σ : Renaming) (g : Graph) : Graph :=
  { g with blocks := g.blocks.map (Block.rename σ) }

section Graph

variable (g : Graph)

@[simp] theorem Graph.size_rename : (g.rename σ).size = g.size := Array.size_map

theorem Graph.copiesOf_rename (b : Nat) : (g.rename σ).copiesOf b = g.copiesOf b := by
  rw [copiesOf, rename, Array.getElem?_map, Option.map_map]
  rfl

theorem Graph.edgeCount_rename : (g.rename σ).edgeCount = g.edgeCount := rfl

theorem Graph.copyCount_rename : (g.rename σ).copyCount = g.copyCount := by
  rw [copyCount, rename, Array.toList_map, List.flatMap_map]
  rfl

theorem Graph.testPoints_rename : (g.rename σ).testPoints = g.testPoints := by
  rw [testPoints, rename, Array.toList_map, List.filterMap_map]
  rfl

theorem Draft.close_rename {d : Draft} {entry : Nat} {g : Graph} (h : d.close entry = .ok g) :
    (d.rename σ).close entry = .ok (g.rename σ) := by
  obtain ⟨hinside, rfl⟩ := freeze_eq_ok.1 h
  apply freeze_eq_ok.2
  constructor
  · intro ss hss s hs
    rw [size_rename]
    exact hinside ss hss s hs
  · simp only [predecessors, size_rename, successors_rename]
    rfl

end Graph

section Fields

variable {t : PointerTable}

theorem idxOf?_map {α β : Type} [BEq α] [LawfulBEq α] [BEq β] [LawfulBEq β] {f : α → β}
    (hf : Function.Injective f) (xs : List α) (x : α) : (xs.map f).idxOf? (f x) = xs.idxOf? x := by
  induction xs with
  | nil => rfl
  | cons y ys ih =>
    rw [List.map_cons, List.idxOf?_cons, List.idxOf?_cons, ih]
    by_cases hxy : y = x
    · rw [hxy, beq_self_eq_true, beq_self_eq_true]
    · rw [beq_false_of_ne hxy, beq_false_of_ne (hf.ne hxy)]

def renamePair (σ : Renaming) : Var × Var → Var × Var := Prod.map (Var.rename σ) (Var.rename σ)

theorem variablePair_rename {c : Copy} {found : Option (Var × Var)}
    (h : t.variablePair c = .ok found) :
    (t.rename σ).variablePair c = .ok (found.map (renamePair σ)) := by
  unfold PointerTable.variablePair at h ⊢
  split at h
  · next hc =>
    cases h
    rw [if_pos hc]
    rfl
  · next hc =>
    rw [if_neg hc]
    obtain ⟨p, hp, h⟩ := bind_eq_ok.1 h
    rw [PointerTable.resolve_rename, hp]
    simp only [Except.map, ok_bind, Pointer.var?_rename]
    cases hv : p.var? with
    | none =>
      rw [hv] at h
      cases h
      rfl
    | some v =>
      rw [hv] at h
      obtain ⟨q, hq, h⟩ := bind_eq_ok.1 h
      cases h
      rw [PointerTable.resolve_rename, hq]
      simp only [Except.map, Option.map_some, ok_bind, Pointer.var?_rename]
      cases q.var? <;> rfl

theorem filterMapM_map_ok {ε α β γ : Type} {f : α → Except ε (Option β)}
    {g : α → Except ε (Option γ)} {r : β → γ} {xs : List α} {ys : List β}
    (hfg : ∀ x found, f x = .ok found → g x = .ok (found.map r)) (h : xs.filterMapM f = .ok ys) :
    xs.filterMapM g = .ok (ys.map r) := by
  induction xs generalizing ys with
  | nil =>
    rw [List.filterMapM_nil, pure_eq_ok] at h
    rw [List.filterMapM_nil, ← h]
    rfl
  | cons x xs ih =>
    rw [List.filterMapM_cons] at h
    obtain ⟨found, hfound, h⟩ := bind_eq_ok.1 h
    rw [List.filterMapM_cons, hfg x found hfound, ok_bind]
    cases found with
    | none => exact ih h
    | some y =>
      obtain ⟨ys', hys, h⟩ := bind_eq_ok.1 h
      cases h
      simp only [Option.map_some, ih hys, ok_bind]
      rfl

namespace Components

def rename (σ : Renaming) (cs : Components) : Components :=
  { cs with vars := cs.vars.map (Var.rename σ) }

variable (cs : Components)

theorem index_rename (v : Var) :
    (cs.rename σ).index (v.rename σ) = ((cs.index v).1, (cs.index v).2.rename σ) := by
  unfold index rename
  dsimp only
  rw [idxOf?_map (Var.rename_injective σ)]
  cases cs.vars.idxOf? v with
  | some i => rfl
  | none => simp

theorem connect_rename (pair : Var × Var) :
    (cs.rename σ).connect (renamePair σ pair) = (cs.connect pair).rename σ := by
  unfold connect renamePair
  simp only [Prod.map, index_rename]
  rfl

theorem foldl_connect_rename (pairs : List (Var × Var)) :
    (pairs.map (renamePair σ)).foldl connect (cs.rename σ) =
      (pairs.foldl connect cs).rename σ := by
  rw [List.foldl_map]
  exact List.foldl_hom (Components.rename σ) fun cs pair => cs.connect_rename pair

theorem rootOf_rename (v : Var) : (cs.rename σ).rootOf (v.rename σ) = cs.rootOf v := by
  rw [rootOf, rename, idxOf?_map (Var.rename_injective σ)]
  rfl

theorem fields_rename (t : PointerTable) : (cs.rename σ).fields (t.rename σ) = cs.fields t := by
  have hused : ((cs.vars.map (Var.rename σ)).zipIdx.map fun vi =>
      (cs.sets.root vi.2, (t.rename σ).fieldsOf vi.1)) =
        cs.vars.zipIdx.map fun vi => (cs.sets.root vi.2, t.fieldsOf vi.1) := by
    rw [List.zipIdx_map, List.map_map]
    apply List.map_congr_left
    intro vi _
    simp only [Function.comp_apply, Prod.map, id, t.fieldsOf_rename]
  unfold fields
  dsimp only [rename]
  rw [hused]

end Components

section Inserting

variable {fieldsAt fieldsAt' : Var → List FieldRef}
  (hfields : ∀ v, fieldsAt' (v.rename σ) = fieldsAt v)

include hfields

theorem inserted_alike (found : Option (Var × Var)) : Alike σ
    (fun t => inserted fieldsAt t found)
    fun t => inserted fieldsAt' t (found.map (renamePair σ)) := by
  cases found with
  | none => exact .pure []
  | some pair =>
    intro t
    simp only [Option.map_some, renamePair, Prod.map, inserted, hfields]
    exact fieldCopies_alike pair.1 pair.2 (fieldsAt pair.1) t

theorem insertFieldCopies_rename {cs cs' : List Copy} {t' : PointerTable} {added added' : Nat}
    (h : insertFieldCopies fieldsAt t added cs = .ok (cs', t', added')) :
    insertFieldCopies fieldsAt' (t.rename σ) added cs = .ok (cs', t'.rename σ, added') := by
  induction cs generalizing t added cs' with
  | nil =>
    cases h
    rfl
  | cons c cs ih =>
    rw [insertFieldCopies_cons] at h ⊢
    obtain ⟨found, hfound, h⟩ := bind_eq_ok.1 h
    obtain ⟨⟨rest, t₂, added₂⟩, hrest, h⟩ := bind_eq_ok.1 h
    cases h
    have hinserted := inserted_alike hfields found t
    dsimp only at hinserted
    rw [variablePair_rename hfound, ok_bind, hinserted, ih hrest, ok_bind]
    rfl

theorem insertInBlocks_rename {bs bs' : List Block} {t' : PointerTable} {added added' : Nat}
    (h : insertInBlocks fieldsAt t added bs = .ok (bs', t', added')) :
    insertInBlocks fieldsAt' (t.rename σ) added (bs.map (Block.rename σ)) =
      .ok (bs'.map (Block.rename σ), t'.rename σ, added') := by
  induction bs generalizing t added bs' with
  | nil =>
    cases h
    rfl
  | cons b bs ih =>
    rw [insertInBlocks] at h
    obtain ⟨⟨copies, t₁, added₁⟩, hcopies, h⟩ := bind_eq_ok.1 h
    obtain ⟨⟨rest, t₂, added₂⟩, hrest, h⟩ := bind_eq_ok.1 h
    cases h
    have hcopies : insertFieldCopies fieldsAt' (t.rename σ) added (b.rename σ).copies =
        .ok (copies, t₁.rename σ, added₁) := insertFieldCopies_rename hfields hcopies
    rw [List.map_cons, insertInBlocks, hcopies, ok_bind]
    dsimp only
    rw [ih hrest]
    rfl

end Inserting

def Propagated.rename (σ : Renaming) (p : Propagated) : Propagated :=
  { p with
    draft := p.draft.rename σ
    table := p.table.rename σ }

theorem copies_map_rename (bs : List Block) :
    (bs.map (Block.rename σ)).flatMap (·.copies) = bs.flatMap (·.copies) := by
  rw [List.flatMap_map]
  rfl

theorem propagateFields_rename {d : Draft} {p : Propagated} (h : propagateFields d t = .ok p) :
    propagateFields (d.rename σ) (t.rename σ) = .ok (p.rename σ) := by
  unfold propagateFields at h ⊢
  obtain ⟨pairs, hpairs, h⟩ := bind_eq_ok.1 h
  have hblocks : (d.rename σ).blocks.toList = d.blocks.toList.map (Block.rename σ) :=
    Array.toList_map
  have hconnect : (pairs.map (renamePair σ)).foldl Components.connect .empty =
      (pairs.foldl Components.connect .empty).rename σ :=
    Components.empty.foldl_connect_rename pairs
  rw [hblocks, copies_map_rename, filterMapM_map_ok (fun _ _ => variablePair_rename) hpairs,
    ok_bind]
  simp only [hconnect, Components.fields_rename] at h ⊢
  split at h
  · next hempty =>
    cases h
    rw [if_pos hempty]
    rfl
  · next hempty =>
    rw [if_neg hempty]
    obtain ⟨⟨blocks, table, added⟩, hinsert, h⟩ := bind_eq_ok.1 h
    cases h
    rw [insertInBlocks_rename (fun v => by rw [Components.rootOf_rename]) hinsert, ok_bind]
    dsimp only
    rw [← List.map_toArray]
    rfl

end Fields

end PointsTo
