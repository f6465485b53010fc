import Ownership.Loans.Facts
import Ownership.Moves.Facts
import Ownership.Report.Finding

/-!
# Conflicts

What the checks can find wrong at a point, and how it is put into words.
-/

namespace Ownership

inductive Conflict where
  /-- Something that is read is not there. -/
  | missing (event : MoveEvent)
  /-- A place is borrowed although another loan is in the way. -/
  | borrowed (point : Point) (existing new : Loan)
  /-- A place is moved out of while it is on loan. -/
  | moved (point : Point) (place : Place) (loan : Loan)
  /-- A place is written while it is on loan. -/
  | written (point : Point) (place : Place) (loan : Loan)
  /-- A place is read while it is on exclusive loan. -/
  | read (point : Point) (place : Place) (loan : Loan)
  /-- The return place holds a reference to storage of the call. -/
  | escaping (point : Point) (function : String) (loan : Loan)
  /-- A place is dropped while a reference to it is used later. -/
  | dropped (point : Point) (loan : Loan)

namespace Conflict

def pointsJson (ps : List Point) : Json := .arr (ps.map Point.toJson)

/-- The move sites a missing value may have been lost at. -/
def blame (e : MoveEvent) : Option Json :=
  if e.movedAt.isEmpty then none
  else some (.obj [("moved_at", pointsJson e.movedAt), ("state", .str e.state.render)])

/-- A finding about a loan that is in the way. -/
def aboutLoan (kind : FindingKind) (place : Place) (point : Point) (loan : Loan) (message : String) :
    Finding :=
  { kind := kind, place := place.render, point := point.location, message := message,
    related := some (.obj [("existing", loan.toJson)]), loan := some loan.id }

/-- The conflict in words. -/
def toFinding : Conflict → Finding
  | .missing e =>
    { kind := .useAfterMove, place := e.place.render, point := e.point.location, message := e.message,
      related := blame e }
  | .borrowed pt old new =>
    let through := match old.holder with
      | some h => " through '" ++ h ++ "'"
      | none => ""
    { kind := .aliasingConflict, place := new.place.render, point := pt.location,
      message := "cannot borrow '" ++ new.place.render ++ "' as " ++ new.kind.render ++ " because "
        ++ old.describe ++ " is still in use" ++ through,
      related := some (.obj [("existing", old.toJson), ("borrow", new.toJson)]),
      loan := some old.id }
  | .moved pt p l => aboutLoan .borrowAcrossMove p pt l
    ("cannot move out of '" ++ p.render ++ "' because it is borrowed: " ++ l.describe
      ++ " is still in use")
  | .written pt p l => aboutLoan .aliasingConflict p pt l
    ("cannot assign to '" ++ p.render ++ "' while it is borrowed: " ++ l.describe
      ++ " is still in use")
  | .read pt p l => aboutLoan .aliasingConflict p pt l
    ("cannot read '" ++ p.render ++ "' while it is uniquely borrowed: " ++ l.describe
      ++ " is still in use")
  | .escaping pt f l => aboutLoan .danglingReference l.place pt l
    ("returned reference to '" ++ l.place.render ++ "' outlives '" ++ l.place.name
      ++ "', which is released when '" ++ f ++ "' returns (" ++ l.describe ++ ")")
  | .dropped pt l => aboutLoan .danglingReference l.place pt l
    ("'" ++ l.place.render ++ "' is dropped while still borrowed: " ++ l.describe
      ++ " is used later through '" ++ l.holder.getD "None" ++ "'")

end Conflict

end Ownership
