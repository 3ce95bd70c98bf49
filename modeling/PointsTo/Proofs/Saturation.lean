import PointsTo.Proofs.Registered

/-! Depth limits that cut nothing off. If no call lay too deep for a limit, every call was sorted as
a larger limit sorts it, so the larger limit gives the same graph and the same answers. -/
namespace PointsTo

namespace Inliner

def withLimit (inl : Inliner) (limit : Nat) : Inliner := { inl with maxDepth := limit }

variable {inl : Inliner} {limit levels levels' : Nat} {m : MethodId} {receiver : Option Var}
  {depth base b : Nat} {c : Call} {st st' : Inlining} {w : PendingCall} {inst : Instance}

def Uncut (st : Inlining) : Prop := st.stats.truncated = 0

section Larger

variable (hle : inl.maxDepth ≤ limit)

include hle

theorem classifyCall_withLimit {call? : Option PendingCall}
    (h : inl.classifyCall m depth b c st = .ok (call?, st')) (hcut : Uncut st') :
    Uncut st ∧ (inl.withLimit limit).classifyCall m depth b c st = .ok (call?, st') := by
  obtain ⟨found, hfound, h⟩ := bind_eq_ok.1 h
  have htarget : (inl.withLimit limit).target c = .ok found := hfound
  rw [classifyCall, htarget, ok_bind]
  cases found with
  | none =>
    cases h
    exact ⟨hcut, rfl⟩
  | some callee =>
    simp only at h ⊢
    split at h
    · next hd =>
      cases h
      exact ⟨hcut, if_pos (Nat.lt_of_lt_of_le hd hle)⟩
    · obtain ⟨method, -, h⟩ := bind_eq_ok.1 h
      cases h
      exact absurd hcut (Nat.succ_ne_zero _)

theorem classifyCalls_withLimit {bis : List (LocalBlock × Nat)} {calls : List PendingCall}
    (h : inl.classifyCalls m depth base bis st = .ok (calls, st')) (hcut : Uncut st') :
    Uncut st ∧ (inl.withLimit limit).classifyCalls m depth base bis st = .ok (calls, st') := by
  induction bis generalizing st calls with
  | nil =>
    cases h
    exact ⟨hcut, rfl⟩
  | cons bi bis ih =>
    obtain ⟨lb, i⟩ := bi
    rw [classifyCalls] at h ⊢
    cases hcall : lb.call with
    | none =>
      rw [hcall] at h
      exact ih h
    | some ic =>
      rw [hcall] at h
      obtain ⟨⟨call?, st₁⟩, h₁, h⟩ := bind_eq_ok.1 h
      obtain ⟨⟨cs, st₂⟩, h₂, h⟩ := bind_eq_ok.1 h
      cases h
      obtain ⟨hcut₁, h₂'⟩ := ih h₂
      obtain ⟨hcut₀, h₁'⟩ := classifyCall_withLimit hle h₁ hcut₁
      refine ⟨hcut₀, ?_⟩
      simp only [h₁', h₂', ok_bind]
      rfl

theorem instantiate_withLimit (h : inl.instantiate m receiver depth st = .ok (inst, st'))
    (hcut : Uncut st') :
    Uncut st ∧ (inl.withLimit limit).instantiate m receiver depth st = .ok (inst, st') := by
  obtain ⟨method, hm, h⟩ := bind_eq_ok.1 h
  obtain ⟨⟨calls, st₁⟩, hcalls, h⟩ := bind_eq_ok.1 h
  cases h
  obtain ⟨hcut₀, hcalls'⟩ := classifyCalls_withLimit hle hcalls hcut
  have hm' : (inl.withLimit limit).program.method m = .ok method := hm
  exact ⟨hcut₀, bind_eq_ok.2 ⟨method, hm', bind_eq_ok.2 ⟨_, hcalls', rfl⟩⟩⟩

theorem splice_withLimit (h : inl.splice w st = .ok (inst, st')) (hcut : Uncut st') :
    Uncut st ∧ (inl.withLimit limit).splice w st = .ok (inst, st') := by
  obtain ⟨⟨inst, st₁⟩, hinst, h⟩ := bind_eq_ok.1 h
  obtain ⟨method, hm, h⟩ := bind_eq_ok.1 h
  cases h
  obtain ⟨hcut₀, hinst'⟩ := instantiate_withLimit hle hinst hcut
  have hm' : (inl.withLimit limit).program.method w.callee = .ok method := hm
  exact ⟨hcut₀, bind_eq_ok.2 ⟨_, hinst', bind_eq_ok.2 ⟨method, hm', rfl⟩⟩⟩

theorem Expands.withLimit (h : inl.Expands levels calls st st')
    (hdepth : inl.InLevels levels calls) (hlevels : levels ≤ levels') (hcut : Uncut st') :
    Uncut st ∧ (inl.withLimit limit).Expands levels' calls st st' := by
  induction h generalizing levels' with
  | cut =>
    rw [hdepth.eq_nil]
    refine ⟨hcut, ?_⟩
    cases levels' with
    | zero => exact .cut
    | succ levels' => exact .done
  | done =>
    obtain ⟨levels', rfl⟩ := Nat.exists_eq_succ_of_ne_zero (Nat.ne_zero_of_lt hlevels)
    exact ⟨hcut, .done⟩
  | turn hsplice _ _ ih₁ ih₂ =>
    obtain ⟨levels', rfl⟩ := Nat.exists_eq_succ_of_ne_zero (Nat.ne_zero_of_lt hlevels)
    -- nothing was cut off later, so nothing before
    obtain ⟨hcut₂, hrest⟩ := ih₂ hdepth.init hlevels hcut
    obtain ⟨hcut₁, hinner⟩ :=
      ih₁ (hdepth.spliced hsplice) (Nat.le_of_succ_le_succ hlevels) hcut₂
    obtain ⟨hcut₀, hsplice'⟩ := splice_withLimit hle hsplice hcut₁
    exact ⟨hcut₀, .turn hsplice' hinner hrest⟩

/-- If nothing was cut off, a higher limit makes no difference to what is inlined. -/
theorem run_withLimit {entry : MethodId} {r : Option Inlined} (h : inl.run entry = .ok r)
    (hcut : ∀ i, r = some i → i.stats.truncated = 0) : (inl.withLimit limit).run entry = .ok r := by
  obtain ⟨method, hm, h⟩ := bind_eq_ok.1 h
  refine bind_eq_ok.2 ⟨method, hm, ?_⟩
  split at h
  · next hempty => exact (if_pos hempty).trans h
  next hempty =>
  refine (if_neg hempty).trans ?_
  obtain ⟨⟨root, st⟩, hroot, h⟩ := bind_eq_ok.1 h
  obtain ⟨st', hst, h⟩ := bind_eq_ok.1 h
  cases h
  obtain ⟨hcut₁, hst'⟩ :=
    (expands_iff.2 hst).withLimit hle (root_inLevels hroot) hle (hcut _ rfl)
  obtain ⟨-, hroot'⟩ := instantiate_withLimit hle hroot hcut₁
  exact bind_eq_ok.2 ⟨_, hroot', bind_eq_ok.2 ⟨_, expands_iff.1 hst', rfl⟩⟩

end Larger

end Inliner

def Event.startedWith (limit : Nat) : Event → Event
  | started entry _ => .started entry limit
  | e => e

def Construction.startedWith (limit : Nat) (c : Construction) : Construction :=
  { c with events := c.events.modifyHead (Event.startedWith limit) }

def Outcome.startedWith (limit : Nat) (o : Outcome) : Outcome :=
  { o with
    construction := o.construction.startedWith limit
    events := o.events.modifyHead (Event.startedWith limit) }

namespace Analysis

def withLimit (a : Analysis) (limit : Nat) : Analysis :=
  { a with config := { a.config with maxInlineDepth := limit } }

variable {a : Analysis} {entry : MethodId} {i : Inlined} {c : Construction} {limit limit' : Nat}

theorem complete_withLimit (hcut : i.stats.truncated = 0) :
    (a.withLimit limit).complete i = a.complete i := by
  have hwarnings : inlineWarnings limit i = inlineWarnings a.config.maxInlineDepth i := by
    rw [inlineWarnings, inlineWarnings, hcut, if_neg (Nat.lt_irrefl 0), if_neg (Nat.lt_irrefl 0)]
  unfold complete
  rw [show (a.withLimit limit).config.maxInlineDepth = limit from rfl, hwarnings]
  rfl

/-- What is constructed depends on the limit through the inlined program alone. -/
theorem constructFrom_startedWith {r : Option Inlined} (h : a.inliner.run entry = .ok r)
    (h' : (a.withLimit limit).inliner.run entry = .ok r)
    (hcut : ∀ i, r = some i → i.stats.truncated = 0) :
    (a.withLimit limit).constructFrom entry =
      (a.constructFrom entry).map (.startedWith limit) := by
  cases hm : a.program.method entry with
  | error fault =>
    have hm' : (a.withLimit limit).program.method entry = .error fault := hm
    rw [constructFrom, constructFrom, hm, hm']
    rfl
  | ok method =>
    have hm' : (a.withLimit limit).program.method entry = .ok method := hm
    cases r with
    | none =>
      rw [constructFrom_of_none hm h, constructFrom_of_none hm' h']
      rfl
    | some i =>
      obtain ⟨c, hc⟩ := complete_ok h
      have hc' : (a.withLimit limit).complete i = .ok c :=
        (complete_withLimit (hcut i rfl)).trans hc
      rw [constructFrom_of_some hm h hc, constructFrom_of_some hm' h' hc']
      rfl

/-- Solving and reading the answers depends neither on the limit nor on the first message. -/
theorem finish_startedWith (hevents : c.events ≠ []) :
    (a.withLimit limit).finish (c.startedWith limit) =
      (a.finish c).map (.startedWith limit) := by
  obtain ⟨table, sites, graph, stats, events⟩ := c
  obtain ⟨event, events, rfl⟩ := List.exists_cons_of_ne_nil hevents
  let solution := graph.solve (seed a.config.seedPolicy sites) a.config.maxIterations
  change (collect graph solution sites (a.program.declaredTests a.hooks) >>= _) =
    (collect graph solution sites (a.program.declaredTests a.hooks) >>= _).map _
  cases collect graph solution sites (a.program.declaredTests a.hooks) with
  | error fault => rfl
  | ok collected => rfl

theorem constructFrom_begins (h : a.constructFrom entry = .ok c) :
    ∃ name rest, c.events = .started name a.config.maxInlineDepth :: rest := by
  obtain ⟨method, -, h⟩ := bind_eq_ok.1 h
  obtain ⟨inlined, -, h⟩ := bind_eq_ok.1 h
  cases inlined with
  | none =>
    cases h
    exact ⟨_, _, rfl⟩
  | some i =>
    obtain ⟨c', -, h⟩ := bind_eq_ok.1 h
    cases h
    exact ⟨_, _, rfl⟩

theorem validate_withLimit (h : limit ≤ maxDepthLimit) (h' : limit' ≤ maxDepthLimit) :
    (a.withLimit limit').config.validate = (a.withLimit limit).config.validate :=
  (if_neg (Nat.not_lt.2 h')).trans (if_neg (Nat.not_lt.2 h)).symm

/-- If two limits inline the same, and nothing was cut off, they have the same outcome. -/
theorem run_startedWith {r : Option Inlined} (h : a.inliner.run entry = .ok r)
    (h' : (a.withLimit limit).inliner.run entry = .ok r)
    (hcut : ∀ i, r = some i → i.stats.truncated = 0)
    (hvalid : (a.withLimit limit).config.validate = a.config.validate)
    (hentry : a.program.entryMethod a.config.entry = .ok entry) :
    (a.withLimit limit).run = a.run.map (.startedWith limit) := by
  have hentry' : (a.withLimit limit).program.entryMethod (a.withLimit limit).config.entry =
    .ok entry := hentry
  rw [run, run, construct, construct, hvalid]
  cases a.config.validate with
  | error e => rfl
  | ok _ =>
    simp only [hentry, hentry']
    rw [constructFrom_startedWith h h' hcut]
    cases hc : a.constructFrom entry with
    | error fault => rfl
    | ok c =>
      obtain ⟨name, rest, hevents⟩ := constructFrom_begins hc
      have hfinish : (a.withLimit limit).finish (c.startedWith limit) =
          (a.finish c).map (.startedWith limit) :=
        finish_startedWith (hevents ▸ List.cons_ne_nil _ _)
      change faulty ((a.withLimit limit).finish (c.startedWith limit)) =
        (faulty (a.finish c)).map _
      rw [hfinish]
      cases a.finish c with
      | error fault => rfl
      | ok o => rfl

/-- If no call lies too deep for a limit, every larger limit inlines the same graph with the same
table, methods and numbers, and all that are allowed have the same outcome: they differ in the limit
that the first message names. -/
theorem limits_saturate {r : Option Inlined}
    (hrun : (a.withLimit limit).inliner.run entry = .ok r)
    (hcut : ∀ i, r = some i → i.stats.truncated = 0) :
    (∀ l, limit ≤ l → (a.withLimit l).inliner.run entry = .ok r) ∧
      (a.program.entryMethod a.config.entry = .ok entry → ∀ l l', limit ≤ l → limit ≤ l' →
        l ≤ maxDepthLimit → l' ≤ maxDepthLimit →
          (a.withLimit l').run = (a.withLimit l).run.map (.startedWith l')) := by
  have hlarger : ∀ l, limit ≤ l → (a.withLimit l).inliner.run entry = .ok r :=
    fun l hl => Inliner.run_withLimit hl hrun hcut
  refine ⟨hlarger, fun hentry l l' hl hl' hallowed hallowed' => ?_⟩
  exact run_startedWith (hlarger l hl) (hlarger l' hl') hcut
    (validate_withLimit hallowed hallowed') hentry

def delegating : Analysis :=
  .of ⟨[], [
    ⟨"Main", "main", "", true, false, none, [], ["a"], [
      .call ⟨some 0, ⟨"A", "outer", ""⟩, [], none⟩, .call (Hooks.default.testCall 1 0), .ret none]⟩,
    ⟨"A", "outer", "", true, false, none, [], ["x"], [
      .call ⟨some 0, ⟨"A", "inner", ""⟩, [], none⟩, .ret (some (.var 0))]⟩,
    ⟨"A", "inner", "", true, false, none, [], ["y"], [
      .call (Hooks.default.allocCall 1), .new 0 "A", .ret (some (.var 0))]⟩], none⟩ .default

theorem delegating_saturates :
    (∃ r, (delegating.withLimit 1).inliner.run 0 = .ok r ∧
      r.map (·.stats.truncated) = some 1) ∧
    ∃ r o, (delegating.withLimit 2).inliner.run 0 = .ok r ∧
      r.map (·.stats.truncated) = some 0 ∧ (delegating.withLimit 2).run = .ok o ∧
      o.answers.labels 1 = [1] ∧
      (∀ l, 2 ≤ l → (delegating.withLimit l).inliner.run 0 = .ok r) ∧
      ∀ l, 2 ≤ l → l ≤ maxDepthLimit → (delegating.withLimit l).run = .ok (o.startedWith l) := by
  refine ⟨exists_ok (by decide +kernel), ?_⟩
  obtain ⟨r, hrun, hzero⟩ : ∃ r, (delegating.withLimit 2).inliner.run 0 = .ok r ∧
    r.map (·.stats.truncated) = some 0 := exists_ok (by decide +kernel)
  obtain ⟨o, ho, hlabels⟩ : ∃ o, (delegating.withLimit 2).run = .ok o ∧
    o.answers.labels 1 = [1] := exists_ok (by decide +kernel)
  have hcut : ∀ i, r = some i → i.stats.truncated = 0 := by
    rintro i rfl
    exact Option.some.inj hzero
  obtain ⟨hlarger, hsame⟩ := limits_saturate hrun hcut
  refine ⟨r, o, hrun, hzero, ho, hlabels, hlarger, fun l hl hallowed => ?_⟩
  have hentry : delegating.program.entryMethod delegating.config.entry = .ok 0 := by decide +kernel
  rw [hsame hentry 2 l (Nat.le_refl 2) hl (by decide) hallowed, ho]
  rfl

end Analysis

end PointsTo
