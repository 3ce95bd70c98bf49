import PointsTo.Proofs.Inline.Stack
import PointsTo.Proofs.Soundness.Steps

/-! Executions followed by the stack machine. At every statement of an execution the machine has
arrived at the block of that statement, and the facts it brings along agree with all frames. -/
namespace PointsTo

open Inliner

/-- An inlined program in which no call was cut off, the facts that its solver starts with, and an
object to follow. The table may know more pointers than the machine. -/
structure Setting where
  inl : Inliner
  entry : MethodId
  numbers : PointerTable
  table : PointerTable
  st : Inlining
  pts : List Point
  seed : Facts
  object : Object
  plain : inl.program.Plain
  layout : Layout inl numbers st pts []
  exhaustive : st.stats.Exhaustive
  extended : numbers ≤ table

namespace Setting

variable {S : Setting} {f f' : Frame} {fs : List Frame} {a : Activation} {cs : List Activation}
  {lb : LocalBlock} {before : List Copy} {p q : Point} {s : Stmt} {c : Call} {callee : MethodId}
  {method : Method} {σ : Facts}

def Arrives (S : Setting) (before : List Copy) (p : Point) : Prop :=
  ∃ ps, S.inl.Run S.numbers S.entry (ps ++ [p]) p ∧
    ps.flatMap (S.inl.copiesAt S.numbers) = before

theorem Arrives.start (S : Setting) : S.Arrives [] (startPoint S.entry) := ⟨[], .start, rfl⟩

theorem Arrives.step (h : S.Arrives before p) (hq : q ∈ S.inl.next S.numbers p) :
    S.Arrives (before ++ S.inl.copiesAt S.numbers p) q := by
  obtain ⟨ps, hrun, rfl⟩ := h
  exact ⟨ps ++ [p], .step hrun hq, by simp⟩

def effects (S : Setting) (a : Activation) : List (Effect Nat) :=
  methodEffects S.inl.hooks a.method (S.inl.stmtsOf a.method) a.receiver S.numbers

def Fits (S : Setting) (copies : List Copy) (frames : List Frame) : Prop :=
  Agrees S.table S.seed S.st.methods S.object (S.seed.run copies) frames

def Suspended (S : Setting) (f : Frame) (site : Activation) : Prop :=
  f.method = site.method ∧ ∃ lb, S.inl.blockAt S.numbers site = some lb ∧ f.pc = lb.last

theorem methods_of_callers (h : List.Forall₂ S.Suspended fs cs) :
    fs.map (·.method) = cs.map (·.method) := by
  induction h with
  | nil => rfl
  | cons hs _ ih => rw [List.map_cons, List.map_cons, hs.1, ih]

structure Tracks (S : Setting) (f : Frame) (fs : List Frame) (a : Activation)
    (cs : List Activation) (lb : LocalBlock) (before : List Copy) : Prop where
  arrives : S.Arrives before (.block a cs)
  stacked : Stacked S.inl S.numbers S.pts a cs
  method : f.method = a.method
  block : S.inl.blockAt S.numbers a = some lb
  first : lb.first ≤ f.pc
  last : f.pc ≤ lb.last
  callers : List.Forall₂ S.Suspended fs cs
  fits : S.Fits (before ++ copiesFrom (S.effects a) lb.first (f.pc - lb.first)) (f :: fs)

def effectAt (S : Setting) (a : Activation) (s : Stmt) (pc : Nat) : Effect Nat :=
  ((s.effect S.inl.hooks a.method a.receiver pc).number S.numbers).1

namespace Tracks

theorem numbered (h : S.Tracks f fs a cs lb before) : S.inl.Numbered S.numbers (.block a cs) :=
  S.layout.numbered _ h.stacked.mem

theorem distinct (h : S.Tracks f fs a cs lb before) : ((f :: fs).map (·.method)).Nodup := by
  rw [List.map_cons, methods_of_callers h.callers, h.method]
  exact h.stacked.nodup S.layout S.exhaustive

theorem stmt (h : S.Tracks f fs a cs lb before) (hs : S.inl.stmtAt f = some s) :
    (S.inl.stmtsOf a.method)[f.pc]? = some s := by
  rw [← h.method]
  exact hs

theorem copies_through (h : S.Tracks f fs a cs lb before) (hs : S.inl.stmtAt f = some s) :
    copiesFrom (S.effects a) lb.first (f.pc + 1 - lb.first) =
      copiesFrom (S.effects a) lb.first (f.pc - lb.first) ++ (S.effectAt a s f.pc).copies := by
  have hfirst := h.first
  have hlen : f.pc + 1 - lb.first = f.pc - lb.first + 1 := by omega
  have hpc : lb.first + (f.pc - lb.first) = f.pc := by omega
  rw [hlen]
  refine copiesFrom_succ ?_
  rw [hpc, effects, getElem?_methodEffects h.numbered, h.stmt hs]
  rfl

/-- At the last statement of its block, what the machine copies there ends with that
statement. -/
theorem copiesAt_block (h : S.Tracks f fs a cs lb before) (hs : S.inl.stmtAt f = some s)
    (hlast : f.pc = lb.last) :
    S.inl.copiesAt S.numbers (.block a cs) =
      copiesFrom (S.effects a) lb.first (f.pc - lb.first) ++ (S.effectAt a s f.pc).copies := by
  have hcopies : S.inl.copiesAt S.numbers (.block a cs) = lb.copies := by
    simp only [copiesAt, blockFor, h.block, Option.map_some, Option.elim_some]
  rw [hcopies, block_copies (blockAt_eq_some h.block), ← h.copies_through hs, hlast]
  rfl

theorem callAt_eq (h : S.Tracks f fs a cs lb before) (hs : S.inl.stmtAt f = some s)
    (hlast : f.pc = lb.last) :
    S.inl.callAt S.numbers a = (s.effect S.inl.hooks a.method a.receiver f.pc).call? := by
  rw [callAt_of_stmt h.numbered h.block (hlast ▸ h.stmt hs), hlast]

theorem leaves_block (h : S.Tracks f fs a cs lb before) (hs : S.inl.stmtAt f = some s)
    (hlast : f.pc = lb.last)
    (hcall : (s.effect S.inl.hooks a.method a.receiver f.pc).call? = none) :
    S.inl.next S.numbers (.block a cs) = S.inl.afterwards S.numbers a cs := by
  have hentered : S.inl.entered S.numbers a cs = none := by
    rw [Option.eq_none_iff_forall_ne_some]
    rintro ⟨c, callee⟩ he
    have hc := (entered_eq_some.1 he).1
    rw [h.callAt_eq hs hlast, hcall] at hc
    cases hc
  rw [next, hentered]
  rfl

end Tracks

/-- The machine goes on to the block that the next statement starts. -/
theorem tracks_of_succ {j : Nat} {lb' : LocalBlock} (hstacked : Stacked S.inl S.numbers S.pts a cs)
    (harrives : S.Arrives before (.block { a with block := j } cs))
    (hlb : S.inl.blockAt S.numbers { a with block := j } = some lb') (hmethod : f.method = a.method)
    (hpc : f.pc = lb'.first) (hcallers : List.Forall₂ S.Suspended fs cs)
    (hfits : S.Fits before (f :: fs)) :
    S.Tracks f fs { a with block := j } cs lb' before := by
  have hlt : j < (S.inl.blocksOf S.numbers a.method a.receiver).length :=
    (List.getElem?_eq_some_iff.1 hlb).1
  have hmem := (S.layout.whole a cs hstacked.mem j).2 hlt
  refine ⟨harrives, hstacked.move hmem, hmethod, hlb, Nat.le_of_eq hpc.symm, ?_, hcallers, ?_⟩
  · rw [hpc]
    exact (block_bounds (blockAt_eq_some hlb)).1
  · rw [hpc, Nat.sub_self, copiesFrom_zero, List.append_nil]
    exact hfits

theorem lt_of_fallsThrough {m : MethodId} {pc : Nat} (hs : (S.inl.stmtsOf m)[pc]? = some s)
    (hfalls : s.fallsThrough = true) : pc + 1 < (S.inl.stmtsOf m).length := by
  obtain ⟨hlt, -⟩ := List.getElem?_eq_some_iff.1 hs
  by_contra hge
  obtain ⟨method, hm, hstmts⟩ := method_of_stmt (List.mem_of_getElem? hs)
  rw [hstmts] at hs hlt hge
  have hpc : method.stmts.length - 1 = pc := by omega
  have hlast : method.stmts.getLast? = some s := by
    rw [List.getLast?_eq_getElem?, hpc, hs]
  have := S.plain.ends method (List.mem_of_getElem? hm) s hlast
  rw [hfalls] at this
  cases this

theorem arrives_succ {j : Nat} (harrives : S.Arrives before p)
    (hnext : S.inl.next S.numbers p = S.inl.afterwards S.numbers a cs)
    (hb : S.inl.blockAt S.numbers a = some lb) (hj : j ∈ lb.succs) :
    S.Arrives (before ++ S.inl.copiesAt S.numbers p) (.block { a with block := j } cs) := by
  refine harrives.step ?_
  rw [hnext, mem_afterwards]
  refine Or.inl ⟨j, ?_, rfl⟩
  rw [succsAt, hb]
  exact hj

namespace Tracks

theorem step_local (h : S.Tracks f fs a cs lb before) (hstep : S.inl.LocalStep f f') :
    ∃ a' lb' before', S.Tracks f' fs a' cs lb' before' := by
  obtain ⟨hm, s, hs, hcall, hpc⟩ := LocalStep.target hstep
  have hstmt := h.stmt hs
  have hblock := blockAt_eq_some h.block
  have hfits : S.Fits (before ++ copiesFrom (S.effects a) lb.first (f.pc + 1 - lb.first))
      (f' :: fs) := by
    have hmem := S.layout.methods a cs h.stacked.mem
    have hd := effect_denotes h.numbered hstmt
    have hagrees := agrees_local hstep hs h.fits (List.nodup_cons.1 h.distinct).1
      (h.method ▸ hmem) S.extended (h.method ▸ hd)
    rw [h.copies_through hs, ← List.append_assoc, Fits, Facts.run_append, effectAt, ← h.method]
    exact hagrees
  by_cases hlast : f.pc = lb.last
  · have hsucc : ∃ j ∈ lb.succs, ∃ lb', S.inl.blockAt S.numbers { a with block := j } = some lb' ∧
        lb'.first = f'.pc := by
      rcases hpc with ⟨hfalls, hpc⟩ | ⟨htarget, hlt⟩
      · have hlt := lt_of_fallsThrough hstmt hfalls
        rw [hlast] at hstmt hlt
        obtain ⟨hj, lb', hlb', hfirst⟩ := next_block hblock hstmt hfalls hlt
        exact ⟨_, hj, lb', hlb', by omega⟩
      · rw [hlast] at hstmt
        rw [h.method] at hlt
        exact jump_block hblock hstmt htarget hlt
    obtain ⟨j, hj, lb', hlb', hfirst⟩ := hsucc
    have harrives := arrives_succ h.arrives (h.leaves_block hs hlast (hcall _ _ _)) h.block hj
    refine ⟨_, lb', _, tracks_of_succ h.stacked harrives hlb' (hm.trans h.method) hfirst.symm
      h.callers ?_⟩
    rw [h.copiesAt_block hs hlast, ← h.copies_through hs]
    exact hfits
  · have hlt : f.pc < lb.last := Nat.lt_of_le_of_ne h.last hlast
    rcases hpc with ⟨-, hpc⟩ | ⟨htarget, -⟩
    · refine ⟨a, lb, before, h.arrives, h.stacked, hm.trans h.method, h.block, ?_, ?_, h.callers,
        ?_⟩
      · have := h.first
        omega
      · omega
      · rw [hpc]
        exact hfits
    · -- a jump ends its block
      refine absurd (ends_last hblock h.first h.last hstmt ?_) hlast
      cases s with
      | branch targets => rfl
      | goto targets => rfl
      | _ => cases htarget

/-- No call was cut off, so the machine follows this one. -/
theorem entered_of_call (h : S.Tracks f fs a cs lb before) (hs : S.inl.stmtAt f = some (.call c))
    (hhook : S.inl.hooks c = none) (hcallee : S.inl.callee? c = some callee) :
    S.inl.entered S.numbers a cs = some (c, callee) := by
  have hlast := ends_last (blockAt_eq_some h.block) h.first h.last (h.stmt hs)
    (endsBlock_of_call hhook)
  have hcallAt : S.inl.callAt S.numbers a = some c := by
    rw [h.callAt_eq hs hlast]
    exact effect_call?.2 ⟨rfl, hhook⟩
  have hne := S.layout.exhaustive S.exhaustive a cs h.stacked.mem
    (by rw [hcallAt]; exact Option.some_ne_none c)
  obtain ⟨⟨c', callee'⟩, he⟩ := Option.ne_none_iff_exists'.1 hne
  obtain ⟨hc', hcallee', -⟩ := entered_eq_some.1 he
  cases hcallAt.symm.trans hc'
  cases hcallee.symm.trans hcallee'
  exact he

theorem step_call (h : S.Tracks f fs a cs lb before) (hs : S.inl.stmtAt f = some (.call c))
    (hhook : S.inl.hooks c = none) (hcallee : S.inl.callee? c = some callee)
    (hmethod : S.inl.program.method? callee = some method) :
    ∃ a' lb' before', S.Tracks ⟨callee, 0, f.locals.ofCall c method⟩ (f :: fs) a' (a :: cs) lb'
      before' := by
  have hlast := ends_last (blockAt_eq_some h.block) h.first h.last (h.stmt hs)
    (endsBlock_of_call hhook)
  have hentered := h.entered_of_call hs hhook hcallee
  obtain ⟨henter, hinto⟩ := next_of_entered hentered
  have hmem := block_of_entered S.layout h.stacked.mem hentered
  have hstacked : Stacked S.inl S.numbers S.pts ⟨callee, receiverOf a.method c, 0⟩ (a :: cs) :=
    .called _ a cs c hmem hentered rfl h.stacked
  obtain ⟨lb', hlb'⟩ : ∃ lb', S.inl.blockAt S.numbers ⟨callee, receiverOf a.method c, 0⟩ =
      some lb' := by
    have hlt := (S.layout.whole _ _ hmem 0).1 hmem
    exact ⟨_, List.getElem?_eq_getElem hlt⟩
  have hfirst := first_of_zero (blockAt_eq_some hlb')
  have hcallers : List.Forall₂ S.Suspended (f :: fs) (a :: cs) :=
    .cons ⟨h.method, lb, h.block, hlast⟩ h.callers
  have hnames := Numbered.names
    (S.layout.numbered _ (mem_of_next S.layout h.stacked.mem henter))
  rw [movesAt_enter hentered hmethod] at hnames
  have hfresh : callee ∉ (f :: fs).map (·.method) := by
    rw [methods_of_callers hcallers]
    exact (List.nodup_cons.1 (hstacked.nodup S.layout S.exhaustive)).1
  have hsilent : (S.effectAt a (.call c) f.pc).copies = [] :=
    copies_of_silent (by simp only [Stmt.effect, hhook, Effect.copy?])
  refine ⟨_, lb', _, (h.arrives.step henter).step hinto, hstacked, rfl, hlb', ?_, ?_, hcallers, ?_⟩
  · exact Nat.le_of_eq hfirst
  · exact Nat.zero_le _
  · rw [h.copiesAt_block hs hlast, hsilent, List.append_nil, Nat.zero_sub, copiesFrom_zero,
      List.append_nil, Fits, Facts.run_append]
    refine agrees_call h.fits (S.plain.formals method (List.mem_of_getElem? hmethod)) hfresh ?_
    rw [h.method]
    exact hnames.imp fun _ _ hn => hn.mono S.extended

/-- The machine follows a return to a caller whose actuals were kept. -/
theorem step_ret {value : Option Operand} (h : S.Tracks f (f' :: fs) a cs lb before)
    (hs : S.inl.stmtAt f = some (.ret value)) (hs' : S.inl.stmtAt f' = some (.call c))
    (hkeeps : S.inl.KeepsActuals S.object (f :: f' :: fs)) :
    ∃ a' cs' lb' before', S.Tracks
      ⟨f'.method, f'.pc + 1, f'.locals.assignResult c (returned f.locals value)⟩ fs a' cs' lb'
      before' := by
  have hstacked := h.stacked
  have hcallers := h.callers
  cases hcallers with
  | @cons _ site _ cs hsite hcallers =>
  obtain ⟨hsmethod, lbs, hlbs, hspc⟩ := hsite
  cases hstacked with
  | called _ _ _ c' hmem hentered hreceiver hbelow =>
  -- the call of the caller's frame is the one that the machine entered
  have hsstmt : (S.inl.stmtsOf site.method)[lbs.last]? = some (.call c) := by
    rw [← hsmethod, ← hspc]
    exact hs'
  obtain ⟨hcallAt, hcallee, -⟩ := entered_eq_some.1 hentered
  rw [callAt_of_stmt (S.layout.numbered _ hbelow.mem) hlbs hsstmt, effect_call?] at hcallAt
  obtain ⟨heq, hhook⟩ := hcallAt
  cases heq
  obtain ⟨-, method, hmethod, -⟩ := callee?_eq_some.1 hcallee
  have hlast := ends_last (blockAt_eq_some h.block) h.first h.last (h.stmt hs) rfl
  have hcall : (Stmt.effect S.inl.hooks a.method a.receiver f.pc (.ret value)).call? = none := by
    rcases value with _ | _ | _ <;> cases a.receiver <;> rfl
  have hleave : .leave site cs ∈ S.inl.next S.numbers (.block a (site :: cs)) := by
    rw [h.leaves_block hs hlast hcall, mem_afterwards, succsAt, h.block]
    exact Or.inr ⟨succs_of_return (blockAt_eq_some h.block) (hlast ▸ h.stmt hs), site, cs, rfl, rfl⟩
  have hback := Numbered.names
    (S.layout.numbered _ (mem_of_next S.layout h.stacked.mem hleave))
  rw [movesAt_leave hentered hmethod, ← hreceiver] at hback
  have hlt := lt_of_fallsThrough hsstmt rfl
  obtain ⟨hj, lb', hlb', hfirst⟩ := next_block (blockAt_eq_some hlbs) hsstmt rfl hlt
  have harrives := arrives_succ (h.arrives.step hleave) rfl hlbs hj
  refine ⟨_, cs, lb', _, tracks_of_succ hbelow harrives hlb' hsmethod (by rw [hspc, hfirst])
    hcallers ?_⟩
  have hnames : List.Forall₂ (Copy.Names S.table)
      ((S.effectAt a (.ret value) f.pc).copies ++ S.inl.copiesAt S.numbers (.leave site cs))
      (Pointer.ofVars (resultVars (receiverOf f'.method c) f.method value ++
        writtenBack (receiverOf f'.method c) (passed f'.method c f.method method))) := by
    rw [Pointer.ofVars, List.map_append, hsmethod, h.method, ← hreceiver]
    refine List.rel_append (names_return S.extended ?_)
      (hback.imp fun _ _ hn => hn.mono S.extended)
    exact effect_denotes h.numbered (h.stmt hs)
  rw [h.copiesAt_block hs hlast, Fits, ← List.append_assoc, List.append_assoc, Facts.run_append]
  exact agrees_return h.fits h.distinct hnames
    (hkeeps f f' fs value c method rfl hs hs' (h.method ▸ hmethod))

end Tracks

def Tracked (S : Setting) (frames : List Frame) : Prop :=
  ∃ f fs a cs lb before, frames = f :: fs ∧ S.Tracks f fs a cs lb before

theorem tracked_start (hstart : startPoint S.entry ∈ S.pts) :
    S.Tracked [⟨S.entry, 0, .empty⟩] := by
  have hlt := (S.layout.whole _ _ hstart 0).1 hstart
  have hlb : S.inl.blockAt S.numbers ⟨S.entry, none, 0⟩ = some _ := List.getElem?_eq_getElem hlt
  have hfirst := first_of_zero (blockAt_eq_some hlb)
  refine ⟨_, _, _, _, _, _, rfl, .start S, .bottom _ hstart, rfl, hlb, Nat.le_of_eq hfirst,
    Nat.zero_le _, .nil, ?_⟩
  rw [Nat.zero_sub, copiesFrom_zero]
  exact Agrees.start

theorem Tracked.step {frames frames' : List Frame} (h : S.Tracked frames)
    (hstep : S.inl.Step frames frames') (hkeeps : S.inl.KeepsActuals S.object frames) :
    S.Tracked frames' := by
  obtain ⟨f, fs, a, cs, lb, before, rfl, h⟩ := h
  cases hstep with
  | inner hlocal =>
    obtain ⟨a', lb', before', h'⟩ := h.step_local hlocal
    exact ⟨_, _, a', cs, lb', before', rfl, h'⟩
  | call hs hhook hcallee hmethod =>
    obtain ⟨a', lb', before', h'⟩ := h.step_call hs hhook hcallee hmethod
    exact ⟨_, _, a', a :: cs, lb', before', rfl, h'⟩
  | ret hs hs' =>
    obtain ⟨a', cs', lb', before', h'⟩ := h.step_ret hs hs' hkeeps
    exact ⟨_, _, a', cs', lb', before', rfl, h'⟩

/-- The machine follows every execution in which no return finds that a formal lost the object. -/
theorem tracked_of_execution {xs : List (List Frame)} {frames : List Frame}
    (hstart : startPoint S.entry ∈ S.pts) (h : S.inl.Execution S.entry xs frames)
    (hkeeps : ∀ x ∈ xs, S.inl.KeepsActuals S.object x) : S.Tracked frames := by
  induction h with
  | start => exact tracked_start hstart
  | @step xs x y hpath hstep ih =>
    have hlast : x ∈ xs := by
      cases hpath with
      | start => exact List.mem_singleton_self _
      | step => exact List.mem_append_right _ (List.mem_singleton_self _)
    refine (ih fun z hz => hkeeps z (List.mem_append_left _ hz)).step hstep ?_
    exact hkeeps x (List.mem_append_left _ hlast)

/-- At a test hook the machine is at a block with the mark of the hook, and behind the copies of
the block the traced variable has the sites of what it holds. -/
theorem Tracked.test {c : Call} {id : Int} {v : Slot} (h : S.Tracked (f :: fs))
    (hs : S.inl.stmtAt f = some (.call c))
    (hhook : S.inl.hooks c = some (.test (some id) (some v))) (hv : f.locals v = some S.object) :
    ∃ ps a cs lb n, S.inl.Run S.numbers S.entry ps (.block a cs) ∧
      S.inl.blockAt S.numbers a = some lb ∧ lb.mark = some ⟨id, n⟩ ∧
      S.object.method ∈ S.st.methods ∧
      ∀ l, S.seed.HoldsAt S.table (.allocation S.object.method S.object.stmt) l →
        (S.seed.run (ps.flatMap (S.inl.copiesAt S.numbers))).Holds n l := by
  obtain ⟨_, _, a, cs, lb, before, heq, h⟩ := h
  cases heq
  have hstmt := h.stmt hs
  have hlast := ends_last (blockAt_eq_some h.block) h.first h.last hstmt
    (by simp [Stmt.endsBlock, Stmt.isAllocHook, hhook])
  obtain ⟨n, hmark, hn⟩ := block_mark h.numbered (blockAt_eq_some h.block) (hlast ▸ hstmt) hhook
  obtain ⟨ps, hrun, hbefore⟩ := h.arrives
  have hsilent : (S.effectAt a (.call c) f.pc).copies = [] :=
    copies_of_silent (hook_silent (by rw [hhook]; exact Option.some_ne_none _)).1
  have hcopies : (ps ++ [Point.block a cs]).flatMap (S.inl.copiesAt S.numbers) =
      before ++ copiesFrom (S.effects a) lb.first (f.pc - lb.first) := by
    rw [List.flatMap_append, hbefore, List.flatMap_singleton, h.copiesAt_block hs hlast, hsilent,
      List.append_nil]
  obtain ⟨hmem, hknows⟩ := h.fits.locals f List.mem_cons_self v hv
  refine ⟨_, a, cs, lb, n, hrun, h.block, hmark, hmem, fun l hl => ?_⟩
  obtain ⟨k, hk, hholds⟩ := hknows l hl
  rw [h.method] at hk
  rw [hcopies, PointerTable.get?_inj (PointerTable.get?_of_le S.extended hn) hk]
  exact hholds

end Setting

end PointsTo
