import Ownership.Proofs.Checked.Moves
import Ownership.Proofs.Liveness.Exact

/-!
# Liveness, with checked lookups

The pass first sums up every block of the order: what its statements use and define, and what the
block as a whole does. The visits and the rows written at the end look these sums up, and with them
what was found live before and behind the blocks.

* `LiveSum`, `Checked.sumUp`: the sum of a block; `liveThrough_sum` says that going backwards over the
  statements one by one is the same as going over the block at once;
* `SetsKnown`: there is a set before and behind every block of the order, which every visit keeps;
* `Checked.trackLive_eq`: the pass as a whole.
-/

namespace Ownership

open Std

/-- What a block uses and defines: statement by statement, and as a whole. -/
structure LiveSum where
  statements : List (Names × Names)
  uses : Names
  defs : Names

namespace Checked

/-! ## 1. Sums -/

/-- The sum of statements that use and define the given roots, before a terminator that uses `exit`. -/
def sumOf (exit : Names) (rows : List (Names × Names)) : LiveSum where
  statements := rows
  uses := rows.foldr (fun x used => (used \ x.2) ∪ x.1) exit
  defs := rows.foldr (fun x defined => defined ∪ x.2) ∅

/-- Backwards over statements one by one, or over their sum. -/
theorem liveThrough_sum (exit out : Names) (rows : List (Names × Names)) :
    (sumOf exit rows).uses ∪ (out \ (sumOf exit rows).defs) =
      rows.foldr (fun x live => (live \ x.2) ∪ x.1) (out ∪ exit) := by
  induction rows with
  | nil =>
    refine ExtTreeSet.ext_mem fun r => ?_
    simp [sumOf, or_comm]
  | cons x rows ih =>
    rw [List.foldr_cons, ← ih]
    refine ExtTreeSet.ext_mem fun r => ?_
    simp only [sumOf, List.foldr_cons, ExtTreeSet.mem_union_iff, ExtTreeSet.mem_diff_iff]
    tauto

section Pass

variable (f : Function) (tracked : Names) (g : Graph)

/-- The sum of a block. -/
def sumUp (b : Nat) : Except Miss LiveSum := do
  let block ← block f b
  return sumOf (f.exitUses tracked block.terminator)
    (block.statements.map fun s => (s.uses tracked, s.defs tracked))

/-- The sums of the blocks of an order. -/
def sums (order : List Nat) : Except Miss (ExtTreeMap Nat LiveSum) :=
  order.foldlM (fun t b => do
    let sum ← sumUp f tracked b
    return t.insert b sum) ∅

/-! ## 2. The pass -/

/-- Visit block `b`. Its predecessors are woken if what is live before it has changed. -/
def visitLive (sums : ExtTreeMap Nat LiveSum) (b : Nat) (s : LiveSets) :
    Except Miss (LiveSets × List Nat) := do
  let succs ← succsOf g b
  let out := succs.foldl (fun live t => live ∪ s.ins.getD t ∅) ∅
  let sum ← found (.facts b) (sums.get? b)
  let into := sum.uses ∪ (out \ sum.defs)
  let outs := s.outs.insert b out
  let old ← found (.facts b) (s.ins.get? b)
  if into = old then .ok (⟨s.ins, outs⟩, [])
  else do
    let preds ← predsOf g b
    return (⟨s.ins.insert b into, outs⟩, preds.filter g.isReachable)

/-- The points of a block, the last first, with what is live before and behind them. -/
def livePoints (sums : ExtTreeMap Nat LiveSum) (b : Nat) (out : Names) :
    Except Miss (List (Point × Names × Names)) := do
  let block ← block f b
  let sum ← found (.facts b) (sums.get? b)
  let body ← block.statements.zipIdx.mapM fun x => do
    let row ← found (.facts b) sum.statements[x.2]?
    return (row, Point.mk b x.2)
  let exit := out ∪ f.exitUses tracked block.terminator
  let rows := body.foldr (fun x acc =>
    ((x.2, (acc.2 \ x.1.2) ∪ x.1.1, acc.2) :: acc.1, (acc.2 \ x.1.2) ∪ x.1.1)) ([], exit)
  return (⟨b, block.statements.length⟩, exit, out) :: rows.1

/-- The rows of a block, from what was found live at its ends. -/
def liveRowsOf (sums : ExtTreeMap Nat LiveSum) (s : LiveSets) (b : Nat) :
    Except Miss (List (Point × Names × Names)) := do
  let _ ← found (.facts b) (s.ins.get? b)
  let out ← found (.facts b) (s.outs.get? b)
  livePoints f tracked sums b out

/-- Run the pass with at most `cap` block visits. -/
def trackLive (types : TypeTable) (cap : Nat) : Except Miss LiveFacts := do
  let tracked := f.tracked types
  let sums ← sums f tracked g.order
  let blank : ExtTreeMap Nat Names := g.order.foldl (fun m b => m.insert b ∅) ∅
  let order := g.order.reverse
  let out ← Worklist.runChecked order (visitLive g sums) cap order ⟨blank, blank⟩ 0
  let rows ← g.order.mapM (liveRowsOf f tracked sums out.state)
  return { tracked := tracked, liveIn := out.state.ins, liveOut := out.state.outs,
           before := rows.flatten.foldl (fun t x => t.insert x.1 x.2.1) ∅,
           after := rows.flatten.foldl (fun t x => t.insert x.1 x.2.2) ∅,
           converged := out.converged, visits := out.visits }

end Pass

section Run

variable {f : Function} {tracked : Names}

/-- The sum of a block, as it is looked up. -/
def sumOfBlock (f : Function) (tracked : Names) (b : Nat) : LiveSum :=
  sumOf (f.exitUses tracked (f.block b).terminator)
    ((f.block b).statements.map fun s => (s.uses tracked, s.defs tracked))

/-- The sums of the blocks in the order of the graph. -/
def graphSums (f : Function) (tracked : Names) : ExtTreeMap Nat LiveSum :=
  writeRows (fun b => b) (sumOfBlock f tracked) f.graph.order ∅

theorem sums_eq (hf : f.WellFormed) : sums f tracked f.graph.order = .ok (graphSums f tracked) := by
  refine (foldlM_ok (fun _ => True) (fun t _ b hb => ⟨?_, trivial⟩) trivial).1
  rw [sumUp, block_eq (hf.order_lt hb)]
  rfl

theorem get?_sums (hf : f.WellFormed) {b : Nat} (hb : b ∈ f.graph.order) :
    (graphSums f tracked).get? b = some (sumOfBlock f tracked b) :=
  getElem?_rows (fun b => b) (sumOfBlock f tracked) ((List.map_id _).symm ▸ hf.graph_sound.nodup) hb

theorem liveThroughBlock_sum (b : Nat) (out : Names) :
    (sumOfBlock f tracked b).uses ∪ (out \ (sumOfBlock f tracked b).defs) =
      f.liveThroughBlock tracked b out := by
  rw [sumOfBlock, liveThrough_sum, List.foldr_map]
  rfl

/-- There is a set before and behind every block of the order. -/
def SetsKnown (f : Function) (s : LiveSets) : Prop :=
  ∀ b ∈ f.graph.order, b ∈ s.ins ∧ b ∈ s.outs

theorem SetsKnown.ins {s : LiveSets} (h : SetsKnown f s) {b : Nat} (hb : b ∈ f.graph.order) :
    s.ins.get? b = some (s.ins.getD b ∅) := getElem?_eq_getD_of_mem (h b hb).1 ∅

theorem SetsKnown.outs {s : LiveSets} (h : SetsKnown f s) {b : Nat} (hb : b ∈ f.graph.order) :
    s.outs.get? b = some (s.outs.getD b ∅) := getElem?_eq_getD_of_mem (h b hb).2 ∅

theorem visitLive_eq (hf : f.WellFormed) (tracked : Names) {b : Nat} (hb : b ∈ f.graph.order) {s : LiveSets}
    (hs : SetsKnown f s) :
    visitLive f.graph (graphSums f tracked) b s = .ok (f.visitLive f.graph tracked b s) := by
  have hlt := hf.order_lt hb
  simp only [visitLive, succsOf_eq hlt, predsOf_eq hlt, get?_sums hf hb, hs.ins hb, found_some, ok_bind,
    pure_eq_ok, liveThroughBlock_sum, Function.visitLive]
  split_ifs <;> rfl

theorem visitLive_known {b : Nat} {s : LiveSets} (hs : SetsKnown f s) :
    SetsKnown f (f.visitLive f.graph tracked b s).1 := by
  intro c hc
  unfold Function.visitLive
  dsimp only
  split_ifs
  · exact ⟨(hs c hc).1, ExtTreeMap.mem_insert.mpr (Or.inr (hs c hc).2)⟩
  · exact ⟨ExtTreeMap.mem_insert.mpr (Or.inr (hs c hc).1),
      ExtTreeMap.mem_insert.mpr (Or.inr (hs c hc).2)⟩

theorem firstLive_known : SetsKnown f f.firstLive := by
  intro b hb
  have hblank : b ∈ f.graph.order.foldl (fun m b => m.insert b ∅) (∅ : ExtTreeMap Nat Names) := by
    rw [← ExtTreeMap.isSome_getElem?_iff_mem, getElem?_constant, if_pos hb]
    rfl
  exact ⟨hblank, hblank⟩

theorem runLive_eq (hf : f.WellFormed) (tracked : Names) (cap : Nat) :
    Worklist.runChecked f.graph.order.reverse (visitLive f.graph (graphSums f tracked)) cap
        f.graph.order.reverse f.firstLive 0 =
      .ok (Worklist.run f.graph.order.reverse (f.visitLive f.graph tracked) cap f.graph.order.reverse
        f.firstLive 0) ∧
    SetsKnown f (Worklist.run f.graph.order.reverse (f.visitLive f.graph tracked) cap
      f.graph.order.reverse f.firstLive 0).state := by
  refine (Worklist.runChecked_all (SetsKnown f) True (List.nodup_reverse.mpr hf.graph_sound.nodup)
    (fun b hb s hs => ⟨?_, visitLive_known hs, fun c hc => ?_⟩) cap firstLive_known 0).imp_left
      (·.eq_ok trivial)
  · exact .of_eq (visitLive_eq hf tracked (List.mem_reverse.mp hb) hs)
  · have hpred : c ∈ f.graph.livePreds b := Worklist.mem_of_woken hc
    exact List.mem_reverse.mpr (List.contains_iff_mem.mp (List.mem_filter.mp hpred).2)

theorem livePoints_eq (hf : f.WellFormed) {b : Nat} (hb : b ∈ f.graph.order) (out : Names) :
    livePoints f tracked (graphSums f tracked) b out = .ok (f.livePoints tracked b out) := by
  have hbody : (f.block b).statements.zipIdx.mapM (fun x => do
      let row ← found (.facts b) (sumOfBlock f tracked b).statements[x.2]?
      return (row, Point.mk b x.2)) =
      .ok ((f.block b).statements.zipIdx.map fun x =>
        ((x.1.uses tracked, x.1.defs tracked), Point.mk b x.2)) := by
    refine mapM_ok fun x hx => ?_
    have hget : (f.block b).statements[x.2]? = some x.1 := List.mem_zipIdx_iff_getElem?.mp hx
    have hrow : (sumOfBlock f tracked b).statements[x.2]? =
        some (x.1.uses tracked, x.1.defs tracked) := by
      rw [sumOfBlock, sumOf, List.getElem?_map, hget]
      rfl
    rw [hrow]
    rfl
  simp only [livePoints, block_eq (hf.order_lt hb), get?_sums hf hb, found_some, ok_bind, hbody,
    List.foldr_map, Function.livePoints, Function.statementsOf]
  rfl

/-- **Liveness misses nothing.** -/
theorem trackLive_eq (hf : f.WellFormed) (types : TypeTable) (cap : Nat) :
    trackLive f f.graph types cap = .ok (f.trackLive f.graph types cap) := by
  obtain ⟨hrun, hknown⟩ := runLive_eq hf (f.tracked types) cap
  have hknown : SetsKnown f (f.lastLive types cap) := hknown
  have hrows : f.graph.order.mapM
      (liveRowsOf f (f.tracked types) (graphSums f (f.tracked types)) (f.lastLive types cap)) =
      .ok (f.graph.order.map fun b =>
        f.livePoints (f.tracked types) b ((f.lastLive types cap).outs.getD b ∅)) := by
    refine mapM_ok fun b hb => ?_
    rw [liveRowsOf, hknown.ins hb, hknown.outs hb]
    exact livePoints_eq hf hb _
  simp only [trackLive, sums_eq hf, ok_bind]
  refine (congrArg (fun r => r >>= _) hrun).trans ?_
  rw [ok_bind]
  refine (congrArg (fun r => r >>= _) hrows).trans ?_
  rw [ok_bind, ← List.flatMap_def]
  rfl

end Run

end Checked

end Ownership
