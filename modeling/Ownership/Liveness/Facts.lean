import Ownership.Flow.Worklist
import Ownership.Liveness.Uses

/-!
# Live reference roots

A tracked root is live at a point when, on some way from there, it is used before it is defined. A
backward pass over the blocks: what is live behind a block is live before one of its successors,
and going backwards over a statement takes its definitions out and its uses in.
-/

namespace Ownership

open Std

/-- What the pass found out. -/
structure LiveFacts where
  tracked : Names
  /-- Live roots before and behind each block. -/
  liveIn : ExtTreeMap Nat Names
  liveOut : ExtTreeMap Nat Names
  /-- Live roots before and behind each point. -/
  before : ExtTreeMap Point Names
  after : ExtTreeMap Point Names
  converged : Bool
  visits : Nat

def LiveFacts.liveBefore (l : LiveFacts) (pt : Point) : Names := l.before.getD pt ∅

def LiveFacts.liveAfter (l : LiveFacts) (pt : Point) : Names := l.after.getD pt ∅

/-! ## 1. Backwards over statements -/

/-- Live before a statement, from what is live behind it. -/
def Statement.liveThrough (tracked : Names) (s : Statement) (live : Names) : Names :=
  (live \ s.defs tracked) ∪ s.uses tracked

/-- Live before the statements of a block and its terminator, from what is live behind it. -/
def Function.liveThroughBlock (f : Function) (tracked : Names) (b : Nat) (out : Names) : Names :=
  (f.block b).statements.foldr (Statement.liveThrough tracked)
    (out ∪ f.exitUses tracked (f.block b).terminator)

/-! ## 2. The pass -/

/-- The live roots before and behind the blocks so far. -/
structure LiveSets where
  ins : ExtTreeMap Nat Names
  outs : ExtTreeMap Nat Names

/-- Visit a block; if what is live before it is new, its predecessors have to be visited again. -/
def Function.visitLive (f : Function) (g : Graph) (tracked : Names) (b : Nat) (s : LiveSets) :
    LiveSets × List Nat :=
  let out := (g.succsOf b).foldl (fun live t => live ∪ s.ins.getD t ∅) ∅
  let into := f.liveThroughBlock tracked b out
  let outs := s.outs.insert b out
  if into = s.ins.getD b ∅ then (⟨s.ins, outs⟩, [])
  else (⟨s.ins.insert b into, outs⟩, g.livePreds b)

/-- The points of a block, the last first, with what is live before and behind them. -/
def Function.livePoints (f : Function) (tracked : Names) (b : Nat) (out : Names) :
    List (Point × Names × Names) :=
  let exit := out ∪ f.exitUses tracked (f.block b).terminator
  let rows := (f.statementsOf b).foldr (fun (s, pt) (rows, live) =>
    let before := s.liveThrough tracked live
    ((pt, before, live) :: rows, before)) ([], exit)
  (f.exitOf b, exit, out) :: rows.1

/-- Run the pass with at most `cap` block visits. -/
def Function.trackLive (f : Function) (g : Graph) (types : TypeTable) (cap : Nat) : LiveFacts :=
  let tracked := f.tracked types
  let blank : ExtTreeMap Nat Names := g.order.foldl (fun m b => m.insert b ∅) ∅
  let order := g.order.reverse
  let out := Worklist.run order (f.visitLive g tracked) cap order ⟨blank, blank⟩ 0
  let rows := g.order.flatMap fun b => f.livePoints tracked b (out.state.outs.getD b ∅)
  { tracked := tracked, liveIn := out.state.ins, liveOut := out.state.outs,
    before := rows.foldl (fun t (pt, before, _) => t.insert pt before) ∅,
    after := rows.foldl (fun t (pt, _, after) => t.insert pt after) ∅,
    converged := out.converged, visits := out.visits }

end Ownership
