/-!
# Depth-first order

A walk from block 0 that follows the edges of each block in order. A block is finished when all its
edges are followed; the list of finished blocks, the latest first, is the order in which forward
passes visit them. An edge back to a block that is still open is retreating: it closes a cycle.
-/

namespace Ownership.DepthFirst

/-- A walk in progress: the open blocks, innermost first, each with the edges left to follow; the
    blocks met so far; the finished blocks and the retreating edges, the latest first. -/
structure Walk where
  stack : List (Nat × List Nat)
  seen : List Nat
  finished : List Nat := []
  retreating : List (Nat × Nat) := []

/-- Follow the next edge of the innermost open block, or finish it. -/
def Walk.step (succs : Nat → List Nat) (w : Walk) : Walk :=
  match w.stack with
  | [] => w
  | (b, []) :: rest => { w with stack := rest, finished := b :: w.finished }
  | (b, s :: ss) :: rest =>
    if w.stack.any fun frame => frame.1 == s then
      { w with stack := (b, ss) :: rest, retreating := (b, s) :: w.retreating }
    else if w.seen.contains s then
      { w with stack := (b, ss) :: rest }
    else
      { w with stack := (s, succs s) :: (b, ss) :: rest, seen := s :: w.seen }

/-- `n` steps of a walk. -/
def Walk.steps (succs : Nat → List Nat) : Nat → Walk → Walk
  | 0, w => w
  | n + 1, w => (w.step succs).steps succs n

/-- The walk before its first step. -/
def Walk.start (succs : Nat → List Nat) : Walk :=
  { stack := [(0, succs 0)], seen := [0] }

/-- The whole walk over a graph given by its successor lists. Each step follows one edge or
    finishes one block, so as many steps as there are edges and blocks are enough. -/
def walk (succs : List (List Nat)) : Walk :=
  let succsOf := fun b => succs.getD b []
  (Walk.start succsOf).steps succsOf (succs.flatten.length + succs.length)

end Ownership.DepthFirst
