import Ownership.Flow.DepthFirst
import Ownership.Flow.Dominators
import Ownership.Function.Basic
import Ownership.Function.Point
import Ownership.Text.Json

/-!
# Flow graphs

The graph of a function: for each block the blocks it can go to and come from, the order of the
blocks met from block 0, the edges that close a cycle, and the dominators. Blocks not met are dead;
they keep their edges but take no part in any analysis.
-/

namespace Ownership

open Std

structure Graph where
  succs : List (List Nat)
  preds : List (List Nat)
  /-- The blocks met from block 0, each before those it leads to except along a retreating edge. -/
  order : List Nat
  /-- The edges that close a cycle. -/
  backEdges : List (Nat × Nat)
  dominators : Dominators Nat

namespace Graph

/-- Enter the edges from block `b` where they lead to. -/
def enterFrom (preds : List (List Nat)) (b : Nat) (ts : List Nat) : List (List Nat) :=
  ts.foldl (fun preds t => preds.modify t (· ++ [b])) preds

/-- For each block those with an edge to it: edge by edge, the source is entered at the target. -/
def enterEdges (succs : List (List Nat)) : List (List Nat) :=
  succs.zipIdx.foldl (fun preds (ts, b) => enterFrom preds b ts) (succs.map fun _ => [])

/-- The graph of blocks that jump to the given targets; a target named twice is one edge. -/
def ofTargets (targets : List (List Nat)) : Graph :=
  let succs := targets.map List.eraseDups
  let preds := enterEdges succs
  let walk := DepthFirst.walk succs
  { succs := succs, preds := preds, order := walk.finished, backEdges := walk.retreating,
    dominators := Dominators.compute 0 walk.finished fun b => preds.getD b [] }

/-- Why blocks make no graph. -/
inductive Error where
  /-- A block has no terminator. -/
  | openBlock
  /-- There is no block to start from. -/
  | noEntry

def Error.message : Error → String
  | .openBlock => "build_cfg requires validated IR"
  | .noEntry => "list index out of range"

/-- The graph of blocks of which some may lack a terminator. -/
def ofOpenTargets (targets : List (Option (List Nat))) : Except Error Graph :=
  match targets.mapM id with
  | none => .error .openBlock
  | some [] => .error .noEntry
  | some ts => .ok (ofTargets ts)

def size (g : Graph) : Nat := g.succs.length

def succsOf (g : Graph) (b : Nat) : List Nat := g.succs.getD b []

def predsOf (g : Graph) (b : Nat) : List Nat := g.preds.getD b []

def isReachable (g : Graph) (b : Nat) : Bool := g.order.contains b

/-- The blocks met from block 0, by number. -/
def reachable (g : Graph) : List Nat := (List.range g.size).filter g.isReachable

/-- The blocks not met, by number. -/
def dead (g : Graph) : List Nat := (List.range g.size).filter fun b => !g.isReachable b

/-- The predecessors that are not dead. -/
def livePreds (g : Graph) (b : Nat) : List Nat := (g.predsOf b).filter g.isReachable

/-- The retreating edges whose target does not dominate their source: the cycle they close can be
    entered elsewhere. -/
def irreducibleEdges (g : Graph) : List (Nat × Nat) :=
  g.backEdges.filter fun (u, v) => !g.dominators.dominates v u

/-- Blocks that a retreating edge leads to. -/
def loopHeaders (g : Graph) : ExtTreeSet Nat := ExtTreeSet.ofList (g.backEdges.map Prod.snd)

/-- Add the successors of every block of a set, until nothing is new or the fuel is used up. -/
def spread (g : Graph) : (fuel : Nat) → ExtTreeSet Nat → ExtTreeSet Nat
  | 0, s => s
  | fuel + 1, s =>
    let next := s.toList.foldl (fun t b => t.insertMany (g.succsOf b)) s
    if next = s then s else g.spread fuel next

/-- The blocks reached from `b` along at least one edge. -/
def beyond (g : Graph) (b : Nat) : ExtTreeSet Nat :=
  g.spread g.size (ExtTreeSet.ofList (g.succsOf b))

/-- Edges by source, then by target. -/
def sortEdges (es : List (Nat × Nat)) : List (Nat × Nat) :=
  es.mergeSort fun a b => a.1 < b.1 || (a.1 == b.1 && a.2 ≤ b.2)

/-- The points of a block with `count` statements, the terminator's included. -/
def points (b count : Nat) : List Point := (List.range (count + 1)).map (Point.mk b)

/-- The edges as a JSON object, with the number of statements of each block. -/
def summary (g : Graph) (counts : List Nat) : Json :=
  let nat (n : Nat) : Json := .int n
  let edges (es : List (Nat × Nat)) : Json :=
    .arr ((sortEdges es).map fun (u, v) => .arr [nat u, nat v])
  .obj [
    ("entry", nat 0),
    ("blocks", .arr (counts.zipIdx.map fun (count, b) => .obj [
      ("id", nat b), ("succs", .arr ((g.succsOf b).map nat)), ("preds", .arr ((g.predsOf b).map nat)),
      ("statements", nat count)])),
    ("reachable", .arr (g.reachable.map nat)),
    ("back_edges", edges g.backEdges),
    ("irreducible_edges", edges g.irreducibleEdges)]

end Graph

namespace Function

/-- The flow graph of a function. -/
def graph (f : Function) : Graph := Graph.ofTargets (f.blocks.map fun b => b.terminator.targets)

/-- The number of statements of each block. -/
def counts (f : Function) : List Nat := f.blocks.map fun b => b.statements.length

/-- A block by number; beyond the last one, an empty block that goes nowhere. -/
def block (f : Function) (b : Nat) : Block := f.blocks.getD b ⟨[], .unreachable⟩

/-- The statements of a block with their points. -/
def statementsOf (f : Function) (b : Nat) : List (Statement × Point) :=
  (f.block b).statements.zipIdx.map fun (s, i) => (s, ⟨b, i⟩)

/-- The point of a block's terminator. -/
def exitOf (f : Function) (b : Nat) : Point := ⟨b, (f.block b).statements.length⟩

end Function

end Ownership
