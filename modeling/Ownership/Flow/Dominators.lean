import Std.Data.ExtTreeMap
import Std.Data.ExtTreeSet

/-!
# Dominators

A block dominates another when every way from the entry to the other leads through it. The sets are
found from above: every block starts with all blocks as candidates, the entry with itself alone,
and each sweep cuts a block's set down to itself and what its predecessors have in common, until a
sweep changes nothing. Only listed blocks take part; predecessors outside the list are ignored.
-/

namespace Ownership

open Std

/-- The dominators of each block, and for each block the one closest to it. -/
structure Dominators (α : Type) [Ord α] where
  sets : ExtTreeMap α (ExtTreeSet α)
  parents : ExtTreeMap α (Option α)

namespace Dominators

variable {α : Type} [Ord α] [TransOrd α] [LawfulEqOrd α] [DecidableEq α]

/-- What the sets of some blocks have in common; nothing, if there are none. -/
def meet (sets : ExtTreeMap α (ExtTreeSet α)) : List α → ExtTreeSet α
  | [] => ∅
  | p :: ps => ps.foldl (fun s q => s.filter (sets.getD q ∅).contains) (sets.getD p ∅)

/-- Cut the set of one block down. -/
def refine (entry : α) (preds : α → List α) (sets : ExtTreeMap α (ExtTreeSet α)) (b : α) :
    ExtTreeMap α (ExtTreeSet α) :=
  if b = entry then sets else sets.insert b ((meet sets (preds b)).insert b)

/-- Cut every set down once, in the order of the list. -/
def sweep (entry : α) (order : List α) (preds : α → List α) (sets : ExtTreeMap α (ExtTreeSet α)) :
    ExtTreeMap α (ExtTreeSet α) :=
  order.foldl (refine entry preds) sets

/-- Sweep until nothing changes, at most `fuel` times. -/
def settle (entry : α) (order : List α) (preds : α → List α) :
    (fuel : Nat) → ExtTreeMap α (ExtTreeSet α) → ExtTreeMap α (ExtTreeSet α)
  | 0, sets => sets
  | fuel + 1, sets =>
    let next := sweep entry order preds sets
    if next = sets then sets else settle entry order preds fuel next

/-- The first strict dominator of `b` that all strict dominators of `b` dominate. -/
def parent? (sets : ExtTreeMap α (ExtTreeSet α)) (b : α) : Option α :=
  let strict := ((sets.getD b ∅).erase b).toList
  strict.find? fun c => strict.all (sets.getD c ∅).contains

/-- The dominators of the listed blocks. A sweep that changes anything takes a block out of a set,
    so one sweep more than there are members at the start is enough. -/
def compute (entry : α) (order : List α) (preds : α → List α) : Dominators α :=
  let listed : ExtTreeSet α := ExtTreeSet.ofList order
  let live := fun b => (preds b).filter listed.contains
  let all := order.foldl (fun m b => m.insert b listed) (∅ : ExtTreeMap α (ExtTreeSet α))
  let start := all.insert entry ((∅ : ExtTreeSet α).insert entry)
  let sets := settle entry order live (order.length * order.length + 1) start
  let parents := order.foldl (fun m b => if b = entry then m else m.insert b (parent? sets b))
    ((∅ : ExtTreeMap α (Option α)).insert entry none)
  ⟨sets, parents⟩

/-- The blocks that dominate `b`. -/
def of (d : Dominators α) (b : α) : ExtTreeSet α := d.sets.getD b ∅

def dominates (d : Dominators α) (a b : α) : Bool := (d.of b).contains a

end Dominators

end Ownership
