import Ownership.Flow.Worklist
import Ownership.Loans.Basic

/-!
# Reaching loans

A forward pass: which loans may have been made on the way to a point and still be in use. A
statement ends the loans held by a root it replaces, adds those it makes and derives, and drops
those whose holder is dead behind it. A loan is active at a point when it reaches the point and its
holder is live there; that is its region.
-/

namespace Ownership

open Std

/-- A set of loan numbers. -/
abbrev LoanIds := ExtTreeSet Nat

/-! ## 1. Over statements -/

/-- A point as the pass leaves it: the loans that reach it, the roots its statement replaces, and the
    loans its statement derives. -/
structure LoanPoint where
  reaching : LoanIds
  killed : Names := ∅
  derived : List Nat := []

/-- The loans of a set whose holder is among the named roots. -/
def Loan.keep (table : List Loan) (ids : LoanIds) (roots : Names) : LoanIds :=
  ids.filter fun i => table[i]?.any fun l => l.isHeldIn roots

namespace Function

variable (f : Function) (types : TypeTable) (live : LiveFacts)

/-- The loans that a statement derives from: those in `ids` whose holder it hands on. -/
def parents (table : List Loan) (ids : LoanIds) (s : Statement) : List Loan :=
  (f.handedOn types live.tracked s).flatMap fun root =>
    (Loan.select table ids).filter fun l => l.holder == some root

/-- Over one statement: the table with the loans it derives, the loans behind it, and the record of
    its point. -/
def loanStep (pt : Point) (s : Statement) (table : List Loan) (ids : LoanIds) :
    List Loan × LoanIds × LoanPoint :=
  let holder := (s.dest?.map Place.name).getD ""
  let (table', derived) := Loan.deriveAll pt holder table (f.parents types live table ids s)
  let made := ((Loan.issuedAtPoint table pt).filter fun l => !l.isTemporary).map Loan.id
  let left := ids.filter fun i => !table[i]?.any fun l => l.isHeldIn s.killed
  let behind := (left.insertMany made).insertMany derived
  (table', Loan.keep table' behind (live.liveAfter pt), ⟨ids, s.killed, derived⟩)

/-- Over a list of statements. -/
def loanSteps : List (Statement × Point) → List Loan → LoanIds →
    List Loan × LoanIds × List (Point × LoanPoint)
  | [], table, ids => (table, ids, [])
  | (s, pt) :: rest, table, ids =>
    let (table, ids, row) := f.loanStep types live pt s table ids
    let (table, ids, rows) := loanSteps rest table ids
    (table, ids, (pt, row) :: rows)

/-- The loans behind a terminator: none when the function returns, else those that a live root
    holds. -/
def loanExit (b : Nat) (table : List Loan) (ids : LoanIds) : LoanIds :=
  match (f.block b).terminator with
  | .ret => ∅
  | _ => Loan.keep table ids (live.liveOut.getD b ∅)

/-- Over a block: the table, the loans behind it, and the records of its points. -/
def loanBlock (b : Nat) (table : List Loan) (ids : LoanIds) :
    List Loan × LoanIds × List (Point × LoanPoint) :=
  let (table, ids, rows) := f.loanSteps types live (f.statementsOf b) table ids
  (table, f.loanExit live b table ids, rows ++ [(f.exitOf b, { reaching := ids })])

/-! ## 2. The pass -/

/-- The table and the loans before and behind the blocks so far. -/
structure LoanSets where
  table : List Loan
  ins : ExtTreeMap Nat LoanIds
  outs : ExtTreeMap Nat LoanIds

/-- Visit a block; if the loans behind it are new, its successors have to be visited again. -/
def visitLoans (g : Graph) (b : Nat) (s : LoanSets) : LoanSets × List Nat :=
  let into := (g.livePreds b).foldl (fun ids p => ids ∪ s.outs.getD p ∅) ∅
  let (table, out, _) := f.loanBlock types live b s.table into
  let ins := s.ins.insert b into
  if s.outs.get? b = some out then (⟨table, ins, s.outs⟩, [])
  else (⟨table, ins, s.outs.insert b out⟩, g.succsOf b)

/-- The records of the visited blocks among `blocks`. -/
def replayLoans (ins : ExtTreeMap Nat LoanIds) : List Nat → List Loan →
    List Loan × List (Point × LoanPoint)
  | [], table => (table, [])
  | b :: bs, table =>
    match ins.get? b with
    | none => replayLoans ins bs table
    | some ids =>
      let (table, _, rows) := f.loanBlock types live b table ids
      let (table, more) := replayLoans ins bs table
      (table, rows ++ more)

end Function

/-! ## 3. Facts -/

/-- What the pass found out. -/
structure LoanFacts where
  loans : List Loan
  points : ExtTreeMap Point LoanPoint
  live : LiveFacts
  /-- The root whose loans leave the function. -/
  result : String
  converged : Bool
  visits : Nat

namespace LoanFacts

variable (l : LoanFacts)

def reaching (pt : Point) : LoanIds := ((l.points.get? pt).map LoanPoint.reaching).getD ∅

def killed (pt : Point) : Names := ((l.points.get? pt).map LoanPoint.killed).getD ∅

/-- The loans a statement makes itself, in operand order. -/
def issued (pt : Point) : List Loan := Loan.issuedAtPoint l.loans pt

/-- The reaching loans held by one of the named roots, by number. -/
def heldIn (pt : Point) (roots : Names) : List Loan :=
  (Loan.select l.loans (l.reaching pt)).filter fun x => x.isHeldIn roots

/-- The loans in use at a point. -/
def activeBefore (pt : Point) : List Loan := l.heldIn pt (l.live.liveBefore pt)

/-- The loans a write at the point has to respect: a holder that is dead behind it, or that the
    write itself replaces, no longer counts. -/
def activeAfter (pt : Point) : List Loan := l.heldIn pt (l.live.liveAfter pt \ l.killed pt)

/-- The loans the return place holds at a point. -/
def escaping (pt : Point) : List Loan :=
  (Loan.select l.loans (l.reaching pt)).filter fun x => x.holder == some l.result

/-- The points at which a loan is in use, the one that makes it included. -/
def region (x : Loan) : ExtTreeSet Point :=
  ExtTreeSet.ofList (x.issuedAt :: (l.points.toList.filter fun (pt, row) =>
    row.reaching.contains x.id && x.isHeldIn (l.live.liveBefore pt)).map Prod.fst)

/-- The region of a loan together with the regions of all loans derived from it. -/
def originRegion (origin : Nat) : ExtTreeSet Point :=
  (l.loans.filter fun x => x.origin == origin).foldl (fun s x => s ∪ l.region x) ∅

end LoanFacts

/-- Run the pass with at most `cap` block visits. -/
def Function.trackLoans (f : Function) (g : Graph) (types : TypeTable) (cap : Nat) (live : LiveFacts) :
    LoanFacts :=
  let start : LoanSets :=
    ⟨f.issueLoans types live.tracked g, (∅ : ExtTreeMap Nat LoanIds).insert 0 ∅, ∅⟩
  let out := Worklist.run g.order (f.visitLoans types live g) cap [0] start 0
  let (loans, rows) := f.replayLoans types live out.state.ins g.order out.state.table
  { loans := loans, points := rows.foldl (fun t (pt, row) => t.insert pt row) ∅, live := live,
    result := f.result.name, converged := out.converged, visits := out.visits }

end Ownership
