import Ownership.Conflict.Basic
import Ownership.Conflict.Frame

/-!
# Detection

Every check is a question about one point, answered from the facts of the passes: the accesses of a
statement against the loans in use there, and the ends of storage against the loans that outlive
them. Two loans can only be in use together if one of them is made while the other is in use, so a
pair is looked at when the later one is made, and is reported once.
-/

namespace Ownership

/-! ## 1. Accesses -/

/-- How a statement touches a place. -/
inductive Access where
  | read (place : Place)
  | move (place : Place)
  | borrow (place : Place) (loan : Loan)
  | write (place : Place)

namespace Function

variable (f : Function) (types : TypeTable)

/-- Taking a value that is copyable or behind a reference only reads it. -/
def moveAccess (p : Place) : Access := if f.isMovable types p then .move p else .read p

/-- The accesses of operands, given the loans that their borrows make, in order. -/
def operandAccesses : List Operand → List Loan → List Access
  | .copy p :: ops, ls => .read p :: operandAccesses ops ls
  | .move p :: ops, ls => f.moveAccess types p :: operandAccesses ops ls
  | .ref p _ :: ops, l :: ls => .borrow p l :: operandAccesses ops ls
  | .ref _ _ :: ops, [] => operandAccesses ops []
  | .literal _ :: ops, ls => operandAccesses ops ls
  | [], _ => []

/-- The accesses of a value: a clone is a read, the rest are its operands. -/
def valueAccesses (v : Value) (issued : List Loan) : List Access :=
  v.cloned?.toList.map .read ++ f.operandAccesses types v.operands issued

/-- The accesses of a statement in the order of evaluation; the write comes last. -/
def accesses (issued : List Loan) : Statement → List Access
  | .assign d v => f.valueAccesses types v issued ++ [.write d]
  | .eval v => f.valueAccesses types v issued
  | .borrow d p _ => issued.map (.borrow p) ++ [.write d]
  | .move d p => [f.moveAccess types p, .write d]
  | .drop _ => []

end Function

/-- A branch reads its condition. -/
def Terminator.accesses : Terminator → List Access
  | .branch c _ _ => c.place?.toList.map .read
  | _ => []

/-! ## 2. Accesses against loans -/

/-- The pairs of loans reported so far, by the loans they go back to. -/
abbrev Pairs := List (Nat × Nat)

/-- A pair of loans, in either order. -/
def pairKey (a b : Loan) : Nat × Nat := (min a.origin b.origin, max a.origin b.origin)

/-- The loan is in the way of an access to the place, kinds apart. -/
def Loan.isTouched (l : Loan) (p : Place) : Bool := l.place.overlaps p && !l.isThroughOldValue p

/-- The loan is in the way of a write: replacing a reference does not touch what it points to. -/
def Loan.isOverwritten (l : Loan) (p : Place) : Bool := l.isTouched p && !p.isBehind l.place

/-- A new loan and one in use exclude each other: they go back to different borrows, and one of them
    is exclusive. -/
def Loan.excludes (old new : Loan) : Bool :=
  old.origin != new.origin && !(new.kind == .shared && old.kind == .shared)

/-- The conflicts of a new loan with those in use, pairs reported before left out. -/
def borrowConflicts (pt : Point) (new : Loan) : List Loan → Pairs → List Conflict × Pairs
  | [], seen => ([], seen)
  | old :: olds, seen =>
    if old.isTouched new.place && old.excludes new && !seen.contains (pairKey old new) then
      let (found, seen) := borrowConflicts pt new olds (pairKey old new :: seen)
      (.borrowed pt old new :: found, seen)
    else borrowConflicts pt new olds seen

/-- The conflicts of one access, given the loans made earlier in the statement. -/
def accessConflicts (facts : LoanFacts) (pt : Point) (here : List Loan) (seen : Pairs) :
    Access → List Conflict × Pairs
  | .read p =>
    let inUse := facts.activeBefore pt ++ here
    (inUse.filter (fun l => l.isTouched p && l.kind == .unique) |>.map (.read pt p), seen)
  | .move p =>
    let inUse := facts.activeBefore pt ++ here
    (inUse.filter (fun l => l.isTouched p) |>.map (.moved pt p), seen)
  | .borrow _ new => borrowConflicts pt new (facts.activeBefore pt ++ here) seen
  | .write p => ((facts.activeAfter pt).filter (fun l => l.isOverwritten p) |>.map (.written pt p), seen)

/-- The conflicts of a list of accesses; a loan made by one of them is in use for the others. -/
def accessesConflicts (facts : LoanFacts) (pt : Point) :
    (here : List Loan) → List Access → Pairs → List Conflict × Pairs
  | _, [], seen => ([], seen)
  | here, a :: as, seen =>
    let (found, seen) := accessConflicts facts pt here seen a
    let here := match a with
      | .borrow _ l => here ++ [l]
      | _ => here
    let (more, seen) := accessesConflicts facts pt here as seen
    (found ++ more, seen)

/-- The conflicts of the accesses at several points in turn. -/
def pointsConflicts (facts : LoanFacts) : List (Point × List Access) → Pairs → List Conflict × Pairs
  | [], seen => ([], seen)
  | (pt, as) :: rest, seen =>
    let (found, seen) := accessesConflicts facts pt [] as seen
    let (more, seen) := pointsConflicts facts rest seen
    (found ++ more, seen)

/-! ## 3. Ends of storage -/

/-- The conflicts where a frame's storage ends. -/
def exitConflicts (facts : LoanFacts) (fr : Frame) (pt : Point) : List Conflict :=
  match fr.kind with
  | .function => (facts.escaping pt).filter (fun l => fr.owns l.place) |>.map (.escaping pt fr.name)
  | .drop => (facts.activeAfter pt).filter (fun l =>
      fr.owns l.place && !fr.places.any fun p => p.isBehind l.place) |>.map (.dropped pt)

/-! ## 4. All checks -/

/-- The accesses of the reachable blocks, point by point. -/
def Function.accessPoints (f : Function) (g : Graph) (types : TypeTable) (facts : LoanFacts) :
    List (Point × List Access) :=
  g.reachable.flatMap fun b =>
    (f.statementsOf b).map (fun (s, pt) => (pt, f.accesses types (facts.issued pt) s))
      ++ [(f.exitOf b, (f.block b).terminator.accesses)]

/-- All conflicts: missing values, then accesses in point order, then the ends of storage. -/
def Function.detect (f : Function) (g : Graph) (types : TypeTable) (moves : MoveFacts)
    (loans : LoanFacts) (frames : List Frame) : List Conflict :=
  moves.events.map .missing
    ++ (pointsConflicts loans (f.accessPoints g types loans) []).1
    ++ frames.flatMap fun fr => fr.exits.flatMap (exitConflicts loans fr)

end Ownership
