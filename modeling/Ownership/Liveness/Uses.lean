import Ownership.Flow.Graph
import Ownership.Types.Carrying

/-!
# Uses and definitions of reference roots

Only roots whose values may hold a reference are tracked: those of a type that carries one, and
every root that a borrow is stored in. A statement uses the tracked roots it reads, index variables
included, and the root of a place it writes through a reference. It defines a root when it writes
or drops all of it; writing a part does neither.
-/

namespace Ownership

open Std

/-- A set of root names. -/
abbrev Names := ExtTreeSet String

/-- The roots whose values may hold a reference; borrows in dead blocks count as well. -/
def Function.tracked (f : Function) (types : TypeTable) : Names :=
  let typed := f.locals.filterMap fun (n, d) => if types.carriesRef d.type then some n else none
  let stored := f.blocks.flatMap fun b => b.statements.filterMap fun
    | .borrow d _ _ => some d.name
    | _ => none
  ExtTreeSet.ofList (typed ++ stored)

/-- The names read along with a place. -/
def Place.uses (p : Place) : List String := p.name :: p.indexVars

/-- The places a statement reads. -/
def Statement.reads : Statement → List Place
  | .assign _ v | .eval v => v.cloned?.toList ++ v.operands.filterMap Operand.place?
  | .borrow _ p _ | .move _ p => [p]
  | .drop _ => []

/-- The names used to write a place. -/
def Place.writeUses (p : Place) : List String :=
  p.indexVars ++ if p.hasDeref then [p.name] else []

/-- The tracked roots a statement uses. -/
def Statement.uses (tracked : Names) (s : Statement) : Names :=
  ExtTreeSet.ofList ((s.reads.flatMap Place.uses ++ s.dest?.toList.flatMap Place.writeUses).filter
    tracked.contains)

/-- The tracked roots a statement defines. -/
def Statement.defs (tracked : Names) (s : Statement) : Names :=
  let ends := match s with
    | .drop p => some p
    | s => s.dest?
  ExtTreeSet.ofList ((ends.toList.filter Place.isWhole |>.map Place.name).filter tracked.contains)

/-- The tracked roots a terminator uses: those of a branch's condition, and the return place. -/
def Function.exitUses (f : Function) (tracked : Names) (t : Terminator) : Names :=
  let used := match t with
    | .branch c _ _ => c.place?.toList.flatMap Place.uses
    | .ret => [f.result.name]
    | .goto _ | .unreachable => []
  ExtTreeSet.ofList (used.filter tracked.contains)

end Ownership
