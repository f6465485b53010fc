import Ownership.Flow.Worklist
import Ownership.Moves.Effect
import Ownership.Place.Printer

/-!
# Ownership along a function

A forward pass: at the entry the roots whose storage outlives the call are owned and all others are
not set; where ways meet, the states join. When no block has to be visited again, or the visits are
used up, every visited block is gone through once more to write down the states before its points,
the reads that find something missing, and the moves.
-/

namespace Ownership

open Std

/-! ## 1. Facts -/

/-- A read of a place of which something may be missing. -/
structure MoveEvent where
  point : Point
  place : Place
  state : MoveState
  /-- The path that is missing. -/
  missing : Path
  action : Action
  /-- Nothing was ever put there. -/
  uninitialized : Bool
  /-- Where it may have been moved out before. -/
  movedAt : List Point

def MoveEvent.message (e : MoveEvent) : String :=
  let name := e.place.render
  if e.uninitialized then
    match e.state with
    | .partly _ => s!"use of possibly-uninitialized '{name}'"
    | _ => s!"use of uninitialized '{name}'"
  else
    let what := match e.state with
      | .partly _ =>
        if e.missing.isEmpty then "possibly moved value"
        else "partially moved value (moved: " ++ Place.render ⟨e.place.root, e.missing⟩ ++ ")"
      | _ => "moved value"
    e.action.render ++ " of " ++ what ++ " '" ++ name ++ "'"

/-- What the pass found out. -/
structure MoveFacts where
  /-- The states before each point of the visited blocks. -/
  before : ExtTreeMap Point MoveMap
  /-- In the order of the blocks, then of the effects. -/
  events : List MoveEvent
  /-- The moves that took a value out of its place, in the same order. -/
  moves : List (Point × Place)
  converged : Bool
  visits : Nat

/-! ## 2. Where values are moved out -/

/-- The places a statement may empty. -/
def Function.emptied (f : Function) (types : TypeTable) : Statement → List Place
  | .move _ p => [p].filter (f.isMovable types)
  | .drop p => [p].filter fun p => !p.hasDeref
  | .assign _ v | .eval v => v.operands.filterMap fun
    | .move p => if f.isMovable types p then some p else none
    | _ => none
  | .borrow .. => []

/-- All places that statements may empty, dead blocks included, in point order. -/
def Function.moveSites (f : Function) (types : TypeTable) : List (Point × Place) :=
  (List.range f.blocks.length).flatMap fun b =>
    (f.statementsOf b).flatMap fun (s, pt) => (f.emptied types s).map (pt, ·)

/-- The sites at which something overlapping `place` may have been moved out before `pt`: earlier in
    the same block, or in a block from which that of `pt` is reached. -/
def reachingSites (g : Graph) (sites : List (Point × Place)) (place : Place) (pt : Point) : List Point :=
  (sites.filterMap fun (at_, p) =>
    if p.overlaps place && ((at_.block == pt.block && at_.stmt < pt.stmt)
        || (g.beyond at_.block).contains pt.block)
    then some at_ else none).mergeSort Point.isLE

/-! ## 3. The pass -/

/-- The states at the entry. -/
def Function.entryStates (f : Function) : MoveMap :=
  f.locals.foldl (fun m (n, d) => m.insert n (if d.root.isExternal then .owned else .moved)) ∅

/-- The states before and after the visited blocks. -/
structure MoveStates where
  ins : ExtTreeMap Nat MoveMap
  outs : ExtTreeMap Nat MoveMap

/-- The states before a block: the joined states after its predecessors, as far as they were
    visited, with those at the entry for block 0. -/
def Function.incoming (f : Function) (g : Graph) (outs : ExtTreeMap Nat MoveMap) (b : Nat) : MoveMap :=
  let known := (if b = 0 then [f.entryStates] else []) ++ (g.livePreds b).filterMap outs.get?
  match known with
  | [] => f.entryStates
  | m :: ms => ms.foldl MoveMap.join m

/-- The states after a block. -/
def Function.outgoing (f : Function) (types : TypeTable) (b : Nat) (m : MoveMap) : MoveMap :=
  (f.blockEffects types b).foldl (fun m (_, es) => Effect.applyAll m es) m

/-- Visit a block; if the states after it are new, its successors have to be visited again. -/
def Function.visitMoves (f : Function) (g : Graph) (types : TypeTable) (b : Nat) (s : MoveStates) :
    MoveStates × List Nat :=
  let before := f.incoming g s.outs b
  let after := f.outgoing types b before
  let ins := s.ins.insert b before
  if s.outs.get? b = some after then (⟨ins, s.outs⟩, [])
  else (⟨ins, s.outs.insert b after⟩, g.succsOf b)

/-! ## 4. Writing the facts down -/

/-- The effects of a list with the states before each of them. -/
def Effect.trace (m : MoveMap) : List Effect → List (MoveMap × Effect)
  | [] => []
  | e :: es => (m, e) :: trace (e.apply m) es

/-- The event of a read that finds something missing. -/
def eventOf? (g : Graph) (sites : List (Point × Place)) (pt : Point) (m : MoveMap) :
    Effect → Option MoveEvent
  | .read p action =>
    let state := m.stateOf p.name
    (state.missing? p.directPath).map fun path =>
      let movedAt := reachingSites g sites p pt
      { point := pt, place := p, state := state, missing := path, action := action,
        uninitialized := state.maybeWhole && movedAt.isEmpty && !p.root.isExternal,
        movedAt := movedAt }
  | _ => none

/-- The points of a list with the states before them. -/
def pointStates (m : MoveMap) : List (Point × List Effect) → List (Point × MoveMap × List Effect)
  | [] => []
  | (pt, es) :: rest => (pt, m, es) :: pointStates (Effect.applyAll m es) rest

/-- Run the pass with at most `cap` block visits. -/
def Function.trackMoves (f : Function) (g : Graph) (types : TypeTable) (cap : Nat) : MoveFacts :=
  let start : MoveStates := ⟨(∅ : ExtTreeMap Nat MoveMap).insert 0 f.entryStates, ∅⟩
  let out := Worklist.run g.order (f.visitMoves g types) cap [0] start 0
  let sites := f.moveSites types
  let rows := g.order.flatMap fun b => match out.state.ins.get? b with
    | some m => pointStates m (f.blockEffects types b)
    | none => []
  { before := rows.foldl (fun t (pt, m, _) => t.insert pt m) ∅,
    events := rows.flatMap fun (pt, m, es) =>
      (Effect.trace m es).filterMap fun (m, e) => eventOf? g sites pt m e,
    moves := rows.flatMap fun (pt, _, es) => es.filterMap fun
      | .take p => some (pt, p)
      | _ => none,
    converged := out.converged, visits := out.visits }

end Ownership
