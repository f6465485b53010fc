import Ownership.Proofs.Flow.Reached
import Ownership.Proofs.Flow.Route
import Ownership.Proofs.Moves.Pass
import Ownership.Proofs.Loans.Reaching

/-!
# What dead blocks have to say

Dead blocks are left out of every pass, so a report should not depend on what stands in them. It
does, in three ways, and `dead_code_reported` shows one function for each:

* a dead write of the return place makes every return read it (`writesResult`);
* a dead borrow makes a root tracked that otherwise holds no reference (`tracked`);
* a dead move counts as the place where a value went if its block leads to a live one
  (`strayMoves`).

There is no fourth: two functions that agree on these three and on their live blocks have the same
report (`dead_blocks_leave_report`). The two runs are compared step by step; a function and the same
function with other blocks (`withBlocks`) share everything that only looks at declarations.
-/

namespace Ownership

open Std

/-! ## 1. Functions that differ in dead blocks -/

namespace Function

/-- The functions have the same head and the same number of blocks, and the same of these are
    reached and stand in both. -/
structure SameReached (f f' : Function) : Prop where
  name : f.name = f'.name
  params : f.params = f'.params
  result : f.result = f'.result
  locals : f.locals = f'.locals
  count : f.blocks.length = f'.blocks.length
  reachable : f.graph.reachable = f'.graph.reachable
  blocks : ∀ b ∈ f.graph.reachable, f.block b = f'.block b

/-- The places that the statements of a block may empty. -/
def blockSites (f : Function) (types : TypeTable) (b : Nat) : List (Point × Place) :=
  (f.statementsOf b).flatMap fun x => (f.emptied types x.1).map fun p => (x.2, p)

/-- The places that block `b` may empty on a way to block `c`. -/
def strayMoves (f : Function) (types : TypeTable) (b c : Nat) : List (Point × Place) :=
  if (f.graph.beyond b).contains c then f.blockSites types b else []

/-- What dead blocks have to say is the same in both functions. -/
structure DeadAlike (f f' : Function) (types : TypeTable) : Prop where
  writes : f.writesResult = f'.writesResult
  tracked : f.tracked types = f'.tracked types
  strays : ∀ b ∈ f.graph.dead, ∀ c ∈ f.graph.reachable,
    f.strayMoves types b c = f'.strayMoves types b c

/-- The function with other blocks. -/
def withBlocks (f : Function) (bs : List Block) : Function := { f with blocks := bs }

theorem SameReached.exists_withBlocks {f f' : Function} (h : f.SameReached f') :
    ∃ bs, f' = f.withBlocks bs := by
  obtain ⟨name, params, result, locals, blocks⟩ := f
  obtain ⟨name', params', result', locals', blocks'⟩ := f'
  obtain ⟨rfl, rfl, rfl, rfl, _, _, _⟩ := h
  exact ⟨blocks', rfl⟩

end Function

/-- Two runs over blocks that differ in dead code, and what both ask of their graph. -/
structure Function.Twins (f : Function) (bs : List Block) : Prop where
  sound : f.graph.Sound
  graph : f.graph.SameReached (f.withBlocks bs).graph
  blocks : ∀ b ∈ f.graph.order, f.block b = (f.withBlocks bs).block b

theorem Function.SameReached.twins {f : Function} {bs : List Block} (hf : f.WellFormed)
    (hf' : (f.withBlocks bs).WellFormed) (h : f.SameReached (f.withBlocks bs)) : f.Twins bs := by
  have hblocks : ∀ b ∈ f.graph.order, f.block b = (f.withBlocks bs).block b :=
    fun b hb => h.blocks b (hf.graph_sound.mem_reachable.mpr hb)
  refine ⟨hf.graph_sound, ?_, hblocks⟩
  refine Graph.ofTargets_sameReached hf.graph_sound hf'.graph_sound ?_ ?_ hf.targets_lt
    hf'.targets_lt ?_
  · rw [List.length_map]
    exact hf.nonempty
  · rw [List.length_map, List.length_map]
    exact h.count
  · intro b hb
    rw [Function.getD_targets, Function.getD_targets, hblocks b hb]

namespace Function.Twins

variable {f : Function} {bs : List Block} {types : TypeTable} {b : Nat}

theorem statementsOf (h : f.Twins bs) (hb : b ∈ f.graph.order) :
    (f.withBlocks bs).statementsOf b = f.statementsOf b := by
  rw [Function.statementsOf, Function.statementsOf, h.blocks b hb]

theorem exitOf (h : f.Twins bs) (hb : b ∈ f.graph.order) :
    (f.withBlocks bs).exitOf b = f.exitOf b := by
  rw [Function.exitOf, Function.exitOf, h.blocks b hb]

theorem mem_order (h : f.Twins bs) (hb : b ∈ f.graph.reachable) : b ∈ f.graph.order :=
  h.sound.mem_reachable.mp hb

/-! ## 2. Moves -/

theorem blockEffects (h : f.Twins bs) (hw : f.writesResult = (f.withBlocks bs).writesResult)
    (hb : b ∈ f.graph.order) :
    (f.withBlocks bs).blockEffects types b = f.blockEffects types b := by
  have hterm : (f.withBlocks bs).terminatorEffects types (f.block b).terminator =
      f.terminatorEffects types (f.block b).terminator := by
    cases (f.block b).terminator with
    | ret =>
      rw [terminatorEffects, terminatorEffects, ← hw]
      rfl
    | _ => rfl
  rw [Function.blockEffects, Function.blockEffects, h.statementsOf hb, h.exitOf hb, ← h.blocks b hb,
    hterm]
  rfl

theorem visitMoves (h : f.Twins bs) (hw : f.writesResult = (f.withBlocks bs).writesResult)
    (hb : b ∈ f.graph.order) :
    (f.withBlocks bs).visitMoves (f.withBlocks bs).graph types b = f.visitMoves f.graph types b := by
  have hin : ∀ outs, (f.withBlocks bs).incoming (f.withBlocks bs).graph outs b =
      f.incoming f.graph outs b := fun outs => by
    rw [incoming, incoming, ← h.graph.preds b hb]
    rfl
  funext s
  rw [Function.visitMoves, Function.visitMoves, hin, outgoing, outgoing, h.blockEffects hw hb,
    ← h.graph.succs b hb]

theorem runMoves (h : f.Twins bs) (hw : f.writesResult = (f.withBlocks bs).writesResult) (cap : Nat) :
    Worklist.run (f.withBlocks bs).graph.order ((f.withBlocks bs).visitMoves (f.withBlocks bs).graph types)
      cap [0] (f.withBlocks bs).firstMoves 0 =
    Worklist.run f.graph.order (f.visitMoves f.graph types) cap [0] f.firstMoves 0 := by
  rw [← h.graph.order]
  refine Worklist.run_congr (fun b hb => h.visitMoves hw hb) cap (fun b hb => ?_) _ 0
  rw [List.mem_singleton.mp hb]
  exact h.sound.entry

end Function.Twins

/-- A site of a block stands at a point of it. -/
theorem Function.block_of_mem_blockSites {f : Function} {types : TypeTable} {b : Nat}
    {x : Point × Place} (hx : x ∈ f.blockSites types b) : x.1.block = b := by
  obtain ⟨⟨s, p⟩, hs, hx⟩ := List.mem_flatMap.mp hx
  obtain ⟨q, _, rfl⟩ := List.mem_map.mp hx
  exact (Function.mem_statementsOf.mp hs).1

/-- What a block other than that of the point has to say about the point. -/
theorem Function.filterMap_blockSites {f : Function} {types : TypeTable} {b : Nat} {place : Place}
    {pt : Point} (hne : b ≠ pt.block) :
    ((f.blockSites types b).filterMap fun x =>
      if x.2.overlaps place && ((x.1.block == pt.block && x.1.stmt < pt.stmt)
          || (f.graph.beyond x.1.block).contains pt.block) then some x.1 else none) =
      (f.strayMoves types b pt.block).filterMap fun x => if x.2.overlaps place then some x.1 else none := by
  rw [Function.strayMoves]
  by_cases hbeyond : (f.graph.beyond b).contains pt.block = true
  · rw [if_pos hbeyond]
    refine List.filterMap_congr fun x hx => ?_
    rw [Function.block_of_mem_blockSites hx, hbeyond, Bool.or_true, Bool.and_true]
  · rw [if_neg hbeyond, List.filterMap_nil]
    refine List.filterMap_eq_nil_iff.mpr fun x hx => ?_
    rw [Function.block_of_mem_blockSites hx, beq_eq_false_iff_ne.mpr hne, Bool.false_and, Bool.false_or,
      Bool.eq_false_iff.mpr hbeyond, Bool.and_false]
    rfl

namespace Function.Twins

variable {f : Function} {bs : List Block} {types : TypeTable} {b : Nat}

/-- Where a value may have gone before a point that is reached. -/
theorem reachingSites (h : f.Twins bs) (hcount : f.blocks.length = bs.length)
    (hstray : ∀ b ∈ f.graph.dead, ∀ c ∈ f.graph.reachable,
      f.strayMoves types b c = (f.withBlocks bs).strayMoves types b c)
    {pt : Point} (hpt : pt.block ∈ f.graph.order) (place : Place) :
    reachingSites (f.withBlocks bs).graph ((f.withBlocks bs).moveSites types) place pt =
      reachingSites f.graph (f.moveSites types) place pt := by
  have hsites : ∀ f : Function, f.moveSites types =
      (List.range f.blocks.length).flatMap (f.blockSites types) := fun _ => rfl
  unfold Ownership.reachingSites
  rw [hsites, hsites, List.filterMap_flatMap, List.filterMap_flatMap,
    show (f.withBlocks bs).blocks.length = f.blocks.length from hcount.symm]
  refine congrArg (List.mergeSort · Point.isLE) (List.flatMap_congr fun b hb => ?_)
  by_cases hord : b ∈ f.graph.order
  · have hsame : (f.withBlocks bs).blockSites types b = f.blockSites types b := by
      rw [blockSites, blockSites, h.statementsOf hord]
      rfl
    rw [hsame]
    refine List.filterMap_congr fun x hx => ?_
    have hblock : x.1.block = b := block_of_mem_blockSites hx
    simp only [hblock, h.graph.beyond_eq h.sound hord]
  · -- a dead block has its say only about the blocks it leads to
    have hne : b ≠ pt.block := fun e => hord (e ▸ hpt)
    have hsize : f.graph.size = f.blocks.length :=
      (List.length_map _).trans (List.length_map _)
    have hdead : b ∈ f.graph.dead := by
      rw [Graph.dead, List.mem_filter, hsize]
      refine ⟨hb, ?_⟩
      rw [Graph.isReachable, List.contains_eq_mem, decide_eq_false hord]
      rfl
    have hstrays := hstray b hdead pt.block (h.sound.mem_reachable.mpr hpt)
    exact (filterMap_blockSites hne).trans (hstrays ▸ (filterMap_blockSites hne).symm)

theorem moveRows (h : f.Twins bs) (hw : f.writesResult = (f.withBlocks bs).writesResult) (cap : Nat) :
    (f.withBlocks bs).moveRows types cap = f.moveRows types cap := by
  rw [Function.moveRows, Function.moveRows, ← h.graph.order]
  refine List.flatMap_congr fun b hb => ?_
  rw [moveRowsOf, moveRowsOf, Function.lastMoves, Function.lastMoves, h.runMoves hw,
    h.blockEffects hw hb]

theorem events (h : f.Twins bs) (ha : f.DeadAlike (f.withBlocks bs) types)
    (hcount : f.blocks.length = bs.length) (cap : Nat) :
    ((f.withBlocks bs).trackMoves (f.withBlocks bs).graph types cap).events =
      (f.trackMoves f.graph types cap).events := by
  rw [trackMoves_events, trackMoves_events, h.moveRows ha.writes]
  refine List.flatMap_congr fun r hr => List.filterMap_congr fun t _ => ?_
  obtain ⟨b, hb, hr⟩ := List.mem_flatMap.mp hr
  obtain ⟨p, m, es⟩ := r
  obtain ⟨_, _, hp, _⟩ := mem_moveRowsOf.mp hr
  have hpt : p.block ∈ f.graph.order := (mem_pointsOf.mp hp).1 ▸ hb
  cases t.2 with
  | read q action => rw [eventOf?, eventOf?, h.reachingSites hcount ha.strays hpt]
  | _ => rfl

/-! ## 3. Liveness -/

theorem visitLive (h : f.Twins bs) (tracked : Names) (hb : b ∈ f.graph.order) :
    (f.withBlocks bs).visitLive (f.withBlocks bs).graph tracked b = f.visitLive f.graph tracked b := by
  have hthrough : ∀ out, (f.withBlocks bs).liveThroughBlock tracked b out =
      f.liveThroughBlock tracked b out := fun out => by
    rw [liveThroughBlock, liveThroughBlock, ← h.blocks b hb]
    rfl
  funext s
  rw [Function.visitLive, Function.visitLive, hthrough, ← h.graph.succs b hb, ← h.graph.preds b hb]

theorem livePoints (h : f.Twins bs) (tracked : Names) (hb : b ∈ f.graph.order) (out : Names) :
    (f.withBlocks bs).livePoints tracked b out = f.livePoints tracked b out := by
  rw [Function.livePoints, Function.livePoints, h.statementsOf hb, h.exitOf hb, ← h.blocks b hb]
  rfl

theorem trackLive (h : f.Twins bs) (ht : f.tracked types = (f.withBlocks bs).tracked types) (cap : Nat) :
    (f.withBlocks bs).trackLive (f.withBlocks bs).graph types cap = f.trackLive f.graph types cap := by
  have hrun : ∀ s, Worklist.run f.graph.order.reverse
      ((f.withBlocks bs).visitLive (f.withBlocks bs).graph (f.tracked types)) cap f.graph.order.reverse s 0 =
      Worklist.run f.graph.order.reverse (f.visitLive f.graph (f.tracked types)) cap
        f.graph.order.reverse s 0 := fun s =>
    Worklist.run_congr (fun b hb => h.visitLive _ (List.mem_reverse.mp hb)) cap (fun b hb => hb) s 0
  have hrows : ∀ outs : ExtTreeMap Nat Names, (f.graph.order.flatMap fun b =>
      (f.withBlocks bs).livePoints (f.tracked types) b (outs.getD b ∅)) =
      f.graph.order.flatMap fun b => f.livePoints (f.tracked types) b (outs.getD b ∅) :=
    fun outs => List.flatMap_congr fun b hb => h.livePoints _ hb _
  simp only [Function.trackLive, ← ht, ← h.graph.order, hrun, hrows]

/-! ## 4. Loans -/

theorem issueLoans (h : f.Twins bs) (tracked : Names) :
    (f.withBlocks bs).issueLoans types tracked (f.withBlocks bs).graph =
      f.issueLoans types tracked f.graph := by
  rw [Function.issueLoans, Function.issueLoans, ← h.graph.reachable]
  refine congrArg (fun l => List.map _ (List.zipIdx l)) (List.flatMap_congr fun b hb => ?_)
  rw [h.statementsOf (h.mem_order hb)]
  rfl

theorem loanSteps (body : List (Statement × Point)) (live : LiveFacts) :
    (f.withBlocks bs).loanSteps types live body = f.loanSteps types live body := by
  induction body with
  | nil => rfl
  | cons x body ih =>
    funext table ids
    rw [Function.loanSteps, Function.loanSteps, ih]
    rfl

theorem loanBlock (h : f.Twins bs) (live : LiveFacts) (hb : b ∈ f.graph.order) :
    (f.withBlocks bs).loanBlock types live b = f.loanBlock types live b := by
  have hexit : (f.withBlocks bs).loanExit live b = f.loanExit live b := by
    unfold loanExit
    rw [← h.blocks b hb]
  funext table ids
  rw [Function.loanBlock, Function.loanBlock, h.statementsOf hb, h.exitOf hb, loanSteps, hexit]

theorem visitLoans (h : f.Twins bs) (live : LiveFacts) (hb : b ∈ f.graph.order) :
    (f.withBlocks bs).visitLoans types live (f.withBlocks bs).graph b =
      f.visitLoans types live f.graph b := by
  funext s
  rw [Function.visitLoans, Function.visitLoans, h.loanBlock live hb, ← h.graph.succs b hb,
    ← h.graph.preds b hb]

theorem replayLoans (h : f.Twins bs) (live : LiveFacts) (ins : ExtTreeMap Nat LoanIds) {cs : List Nat}
    (hcs : ∀ b ∈ cs, b ∈ f.graph.order) (table : List Loan) :
    (f.withBlocks bs).replayLoans types live ins cs table = f.replayLoans types live ins cs table := by
  induction cs generalizing table with
  | nil => rfl
  | cons b cs ih =>
    have ih := ih fun c hc => hcs c (List.mem_cons_of_mem _ hc)
    rw [Function.replayLoans, Function.replayLoans]
    cases ins.get? b with
    | none => exact ih table
    | some ids => simp only [h.loanBlock live (hcs b List.mem_cons_self), ih]

theorem trackLoans (h : f.Twins bs) (types : TypeTable) (live : LiveFacts) (cap : Nat) :
    (f.withBlocks bs).trackLoans (f.withBlocks bs).graph types cap live =
      f.trackLoans f.graph types cap live := by
  have hrun : ∀ s, Worklist.run f.graph.order
      ((f.withBlocks bs).visitLoans types live (f.withBlocks bs).graph) cap [0] s 0 =
      Worklist.run f.graph.order (f.visitLoans types live f.graph) cap [0] s 0 := fun s => by
    refine Worklist.run_congr (fun b hb => h.visitLoans live hb) cap (fun b hb => ?_) s 0
    rw [List.mem_singleton.mp hb]
    exact h.sound.entry
  simp only [Function.trackLoans, ← h.graph.order, h.issueLoans, hrun,
    h.replayLoans live _ fun b hb => hb]
  rfl

/-! ## 5. Conflicts -/

theorem frames (h : f.Twins bs) : (f.withBlocks bs).frames (f.withBlocks bs).graph = f.frames f.graph := by
  have hreturns : (f.withBlocks bs).returns (f.withBlocks bs).graph = f.returns f.graph := by
    rw [returns, returns, ← h.graph.reachable]
    refine List.filterMap_congr fun b hb => ?_
    rw [h.exitOf (h.mem_order hb), ← h.blocks b (h.mem_order hb)]
  have hdrops : (f.graph.reachable.flatMap fun b =>
      ((f.withBlocks bs).statementsOf b).filterMap dropFrame?) =
      f.graph.reachable.flatMap fun b => (f.statementsOf b).filterMap dropFrame? :=
    List.flatMap_congr fun b hb => by rw [h.statementsOf (h.mem_order hb)]
  rw [Function.frames, Function.frames, hreturns, ← h.graph.reachable, hdrops]
  rfl

theorem operandAccesses (ops : List Operand) (ls : List Loan) :
    (f.withBlocks bs).operandAccesses types ops ls = f.operandAccesses types ops ls := by
  induction ops generalizing ls with
  | nil => rfl
  | cons o ops ih =>
    cases o with
    | ref p k =>
      cases ls with
      | nil => exact ih []
      | cons l ls => exact congrArg _ (ih ls)
    | literal v => exact ih ls
    | copy p => exact congrArg _ (ih ls)
    | move p => exact congrArg _ (ih ls)

theorem accesses (issued : List Loan) (s : Statement) :
    (f.withBlocks bs).accesses types issued s = f.accesses types issued s := by
  cases s with
  | assign d v => rw [Function.accesses, Function.accesses, valueAccesses, valueAccesses, operandAccesses]
  | eval v => rw [Function.accesses, Function.accesses, valueAccesses, valueAccesses, operandAccesses]
  | _ => rfl

theorem accessPoints (h : f.Twins bs) (facts : LoanFacts) :
    (f.withBlocks bs).accessPoints (f.withBlocks bs).graph types facts =
      f.accessPoints f.graph types facts := by
  rw [Function.accessPoints, Function.accessPoints, ← h.graph.reachable]
  refine List.flatMap_congr fun b hb => ?_
  rw [h.statementsOf (h.mem_order hb), h.exitOf (h.mem_order hb), ← h.blocks b (h.mem_order hb)]
  simp only [accesses]

/-- **All that is found out about a function apart from its dead blocks.** -/
theorem analyse (h : f.Twins bs) (ha : f.DeadAlike (f.withBlocks bs) types)
    (hcount : f.blocks.length = bs.length) (cap : Nat) :
    ((f.withBlocks bs).analyse types cap).conflicts = (f.analyse types cap).conflicts ∧
      ((f.withBlocks bs).analyse types cap).stalled = (f.analyse types cap).stalled := by
  have hlive := h.trackLive ha.tracked cap
  have hloans := h.trackLoans types (f.trackLive f.graph types cap) cap
  have hconverged : ((f.withBlocks bs).trackMoves (f.withBlocks bs).graph types cap).converged =
      (f.trackMoves f.graph types cap).converged :=
    congrArg Worklist.Outcome.converged (h.runMoves ha.writes cap)
  constructor
  · show (f.withBlocks bs).detect _ types _ _ _ = f.detect _ types _ _ _
    rw [detect, detect, hlive, hloans, h.events ha hcount, h.accessPoints, h.frames]
  · simp only [Analysis.stalled, Function.analyse, hlive, hloans, hconverged]

end Function.Twins

/-! ## 6. Reports -/

variable {f f' : Function} {types : TypeTable}

theorem check_of_deadAlike (hf : f.WellFormed) (hf' : f'.WellFormed) (hs : f.SameReached f')
    (ha : f.DeadAlike f' types) (s : Settings) : f.check types s = f'.check types s := by
  obtain ⟨bs, rfl⟩ := hs.exists_withBlocks
  have h := hs.twins hf hf'
  obtain ⟨hconflicts, hstalled⟩ := h.analyse ha hs.count s.maxVisits
  have hdead : ((f.withBlocks bs).analyse types s.maxVisits).deadFindings =
      (f.analyse types s.maxVisits).deadFindings := by
    rw [Analysis.deadFindings, Analysis.deadFindings]
    exact congrArg (List.map _) h.graph.dead.symm
  rw [Function.check, Function.check, Analysis.report, Analysis.report, hconflicts, hdead,
    Analysis.stalledFinding, Analysis.stalledFinding, hstalled]
  rfl

/-- **Dead blocks leave the report as it is**, as long as they agree on whether the return place is
    written, on which roots are borrowed into, and on the moves on a way into live blocks. -/
theorem dead_blocks_leave_report {d d' : Draft} (hv : d.validate types = .ok f)
    (hv' : d'.validate types = .ok f') (hs : f.SameReached f') (ha : f.DeadAlike f' types)
    (s : Settings) : ∃ r, d.verify types s = .ok r ∧ d'.verify types s = .ok r := by
  have hcheck := check_of_deadAlike (Draft.wellFormed_of_validate hv) (Draft.wellFormed_of_validate hv')
    hs ha s
  refine ⟨f.check types s, ?_, ?_⟩
  · rw [Draft.verify, hv]
    rfl
  · rw [Draft.verify, hv', hcheck]
    rfl

/-- The loop of `relay` with a dead block behind it. -/
def relayWith (dead : Block) : Function := relay.withBlocks (relay.blocks ++ [dead])

/-- A dead block that drops `x` and returns, and one that borrows `x` again and leads into the loop. -/
def relayTails : Block × Block :=
  (⟨[.drop ⟨⟨.localVar, "x"⟩, []⟩], .ret⟩,
    ⟨[.borrow ⟨⟨.localVar, "r"⟩, []⟩ ⟨⟨.localVar, "x"⟩, []⟩ .unique], .goto 1⟩)

/-- The two dead blocks have nothing to say: what is dropped is not on a way into the loop, and `r`
    holds references anyway. -/
theorem dead_blocks_leave_report_relay :
    (relayWith relayTails.1).SameReached (relayWith relayTails.2) ∧
      ∃ r, (relayWith relayTails.1).draft.verify relayTypes { maxVisits := 20, lintDeadCode := false } = .ok r ∧
        (relayWith relayTails.2).draft.verify relayTypes { maxVisits := 20, lintDeadCode := false } = .ok r := by
  have hs : (relayWith relayTails.1).SameReached (relayWith relayTails.2) :=
    ⟨rfl, rfl, rfl, rfl, rfl, by decide +kernel, by decide +kernel⟩
  have ha : (relayWith relayTails.1).DeadAlike (relayWith relayTails.2) relayTypes :=
    ⟨by decide +kernel, by decide +kernel, by decide +kernel⟩
  exact ⟨hs, dead_blocks_leave_report rfl rfl hs ha _⟩

/-! ## 7. Dead blocks that are heard -/

/-- The types of the functions below. -/
def strayTypes : TypeTable where
  defs := [⟨"Int", .scalar⟩, ⟨"Vec", .owned⟩]

/-- A function that returns nothing, with a dead block. -/
def quiet (dead : List Statement) : Function where
  name := "quiet"
  params := []
  result := ⟨⟨.result, "_ret"⟩, []⟩
  locals := [("_ret", ⟨⟨.result, "_ret"⟩, some 1⟩)]
  blocks := [⟨[], .ret⟩, ⟨dead, .ret⟩]

/-- A function that reads `v` without having put anything there, with a dead block before it. -/
def stray (dead : List Statement) : Function where
  name := "stray"
  params := []
  result := ⟨⟨.result, "_ret"⟩, []⟩
  locals := [("v", ⟨⟨.localVar, "v"⟩, some 2⟩), ("_ret", ⟨⟨.result, "_ret"⟩, some 1⟩)]
  blocks := [⟨[], .goto 2⟩, ⟨dead, .goto 2⟩, ⟨[.eval (.call "use" [.copy ⟨⟨.localVar, "v"⟩, []⟩])], .ret⟩]

/-- A function that passes a reference to `v` on to a field of the integer `x`, with a dead block. -/
def lend (dead : List Statement) : Function where
  name := "lend"
  params := []
  result := ⟨⟨.result, "_ret"⟩, []⟩
  locals := [("v", ⟨⟨.localVar, "v"⟩, some 2⟩), ("x", ⟨⟨.localVar, "x"⟩, some 1⟩),
    ("_ret", ⟨⟨.result, "_ret"⟩, some 1⟩)]
  blocks := [
    ⟨[.assign ⟨⟨.localVar, "v"⟩, []⟩ (.alloc "Vec"), .assign ⟨⟨.localVar, "x"⟩, []⟩ (.const (.int 1)),
      .assign ⟨⟨.localVar, "x"⟩, [.field "f"]⟩ (.call "pick" [.ref ⟨⟨.localVar, "v"⟩, []⟩ .shared]),
      .eval (.call "take" [.move ⟨⟨.localVar, "v"⟩, []⟩]),
      .eval (.call "use" [.copy ⟨⟨.localVar, "x"⟩, []⟩])], .ret⟩,
    ⟨dead, .ret⟩]

/-- Settings under which dead blocks themselves are not reported. -/
def conflictsOnly : Settings := ⟨20, false, 1, Nat.succ_pos 19, Nat.one_pos⟩

/-- Two valid functions differ in dead code only, and yet in their conflicts. -/
structure Function.ApartByDead (types : TypeTable) (f f' : Function) : Prop where
  valid : f.draft.validate types = .ok f
  valid' : f'.draft.validate types = .ok f'
  same : f.SameReached f'
  conflicts : (f.check types conflictsOnly).conflicts ≠ (f'.check types conflictsOnly).conflicts

/-- For each conflict, whether it says where the value went or which loan is in the way. -/
def Function.explained (f : Function) (types : TypeTable) : List Bool :=
  (f.check types conflictsOnly).conflicts.map fun x => x.related.isSome

theorem Function.conflicts_ne_of_explained {f f' : Function} {types : TypeTable}
    (h : f.explained types ≠ f'.explained types) :
    (f.check types conflictsOnly).conflicts ≠ (f'.check types conflictsOnly).conflicts :=
  fun e => h (congrArg (List.map fun x : Finding => x.related.isSome) e)

/-- **A statement in a dead block changes the conflicts**, in three ways: a write of the return place,
    a move on a way into a live block, a borrow into a root that otherwise holds no reference. -/
theorem dead_code_reported :
    Function.ApartByDead strayTypes (quiet []) (quiet [.assign ⟨⟨.result, "_ret"⟩, []⟩ (.const (.int 1))]) ∧
      Function.ApartByDead strayTypes (stray []) (stray [.drop ⟨⟨.localVar, "v"⟩, []⟩]) ∧
      Function.ApartByDead strayTypes (lend [])
        (lend [.borrow ⟨⟨.localVar, "x"⟩, []⟩ ⟨⟨.localVar, "v"⟩, []⟩ .shared]) := by
  refine ⟨⟨rfl, rfl, ?_, ?_⟩, ⟨rfl, rfl, ?_, ?_⟩, ⟨rfl, rfl, ?_, ?_⟩⟩
  · exact ⟨rfl, rfl, rfl, rfl, rfl, by decide +kernel, by decide +kernel⟩
  · exact Function.conflicts_ne_of_explained (by decide +kernel)
  · exact ⟨rfl, rfl, rfl, rfl, rfl, by decide +kernel, by decide +kernel⟩
  · exact Function.conflicts_ne_of_explained (by decide +kernel)
  · exact ⟨rfl, rfl, rfl, rfl, rfl, by decide +kernel, by decide +kernel⟩
  · exact Function.conflicts_ne_of_explained (by decide +kernel)

end Ownership
