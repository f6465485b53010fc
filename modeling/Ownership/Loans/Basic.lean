import Ownership.Function.Point
import Ownership.Liveness.Facts
import Ownership.Place.Printer
import Ownership.Text.Json

/-!
# Loans

A loan is one borrow of a place. Its holder is the root whose value carries the reference; a loan
without holder ends with the statement that made it. Copying a reference into another root makes a
derived loan of the same place and kind, held by that root and linked to the loan it goes back to.

The table lists the loans by number. The loans that statements make themselves come first, in the
order of blocks, statements and operands; they do not depend on what the passes find out.
-/

namespace Ownership

open Std

structure Loan where
  id : Nat
  place : Place
  kind : LoanKind
  issuedAt : Point
  holder : Option String
  /-- The loan this one goes back to: itself, unless it is derived. -/
  origin : Nat
  deriving DecidableEq, Repr

namespace Loan

def isTemporary (l : Loan) : Bool := l.holder.isNone

def isDerived (l : Loan) : Bool := l.origin != l.id

/-- One of the named roots holds the loan. -/
def isHeldIn (l : Loan) (roots : Names) : Bool := l.holder.any roots.contains

def describe (l : Loan) : String :=
  s!"{l.kind.render} loan #{l.id} of '{l.place.render}' at {l.issuedAt.render}"

def toJson (l : Loan) : Json :=
  .obj [("loan", .int l.id), ("loan_kind", .str l.kind.render), ("loan_place", .str l.place.render),
    ("issued_at", l.issuedAt.toJson),
    ("holder", (l.holder.map Json.str).getD .null)]

/-- The loan names storage behind its own holder, and the place hangs off that holder too: the
    holder's old value led there, so reaching the place through the holder is no other access. -/
def isThroughOldValue (l : Loan) (p : Place) : Bool :=
  l.holder == some p.name && l.place.name == p.name && l.place.hasDeref

end Loan

/-! ## 1. What statements borrow and hand on -/

namespace Function

variable (f : Function) (types : TypeTable) (tracked : Names)

/-- The destination keeps the references of the value written to it. -/
def keepsRefs (dest : Place) : Bool :=
  match f.placeType types dest with
  | none => tracked.contains dest.name
  | some t => types.carriesRef (some t)

/-- Reading the place hands on the references its root holds. -/
def handsOn (p : Place) : Bool :=
  tracked.contains p.name && match f.placeType types p with
    | none => true
    | some t => types.carriesRef (some t)

/-- The borrows of a list of operands, in order. -/
def operandBorrows (ops : List Operand) : List (Place × LoanKind) :=
  ops.filterMap fun
    | .ref p k => some (p, k)
    | _ => none

/-- The borrows a statement makes, each with the root that holds it. -/
def borrows : Statement → List (Place × LoanKind × Option String)
  | .borrow d p k => [(p, k, some d.name)]
  | .assign d v =>
    let holder := if f.keepsRefs types tracked d then some d.name else none
    (operandBorrows v.operands).map fun (p, k) => (p, k, holder)
  | .eval v => (operandBorrows v.operands).map fun (p, k) => (p, k, none)
  | .move .. | .drop _ => []

/-- The places whose values a list of operands passes on. -/
def passedPlaces (ops : List Operand) : List Place :=
  ops.filterMap fun
    | .copy p | .move p => some p
    | _ => none

/-- The roots whose references a statement hands on to its destination, in order. Borrowing through
    a reference keeps borrowed whatever the reference borrows. -/
def handedOn : Statement → List String
  | .borrow _ p _ => if p.hasDeref && tracked.contains p.name then [p.name] else []
  | .assign d v =>
    if f.keepsRefs types tracked d then
      ((v.cloned?.toList ++ passedPlaces v.operands).filter (f.handsOn types tracked)).map Place.name
    else []
  | .move _ p => if f.handsOn types tracked p then [p.name] else []
  | .drop _ | .eval _ => []

/-- All loans that statements of reachable blocks make themselves. -/
def issueLoans (g : Graph) : List Loan :=
  let made := g.reachable.flatMap fun b => (f.statementsOf b).flatMap fun (s, pt) =>
    (f.borrows types tracked s).map fun row => (pt, row)
  made.zipIdx.map fun ((pt, p, k, holder), i) =>
    { id := i, place := p, kind := k, issuedAt := pt, holder := holder, origin := i }

end Function

/-- The root a statement replaces as a whole. -/
def Statement.killed (s : Statement) : Names :=
  ExtTreeSet.ofList ((s.dest?.toList.filter Place.isWhole).map Place.name)

/-! ## 2. The table -/

namespace Loan

/-- The loans a statement makes itself at a point, in operand order. -/
def issuedAtPoint (table : List Loan) (pt : Point) : List Loan :=
  table.filter fun l => !l.isDerived && l.issuedAt == pt

/-- The loans with the given numbers, by number. -/
def select (table : List Loan) (ids : ExtTreeSet Nat) : List Loan :=
  ids.toList.filterMap fun i => table[i]?

/-- The loan derived from `parent` at a point for a holder, entered into the table the first time it
    is asked for. -/
def derive (table : List Loan) (parent : Loan) (pt : Point) (holder : String) : List Loan × Nat :=
  match table.find? fun l => l.isDerived && l.origin == parent.origin && l.issuedAt == pt
      && l.holder == some holder with
  | some l => (table, l.id)
  | none => (table ++ [{ id := table.length, place := parent.place, kind := parent.kind,
                         issuedAt := pt, holder := some holder, origin := parent.origin }],
             table.length)

/-- Derive from several loans in turn. -/
def deriveAll (pt : Point) (holder : String) : List Loan → List Loan → List Loan × List Nat
  | table, [] => (table, [])
  | table, l :: ls =>
    let (table, i) := derive table l pt holder
    let (table, is) := deriveAll pt holder table ls
    (table, i :: is)

end Loan

end Ownership
