import Ownership.Report.Location
import Ownership.Text.Quoted

/-!
# Findings

One thing a check has to say about a function: what kind of thing, about which place, at which
point, in words, and what else is to do with it.
-/

namespace Ownership

inductive FindingKind where
  | useAfterMove
  | borrowAcrossMove
  | aliasingConflict
  | danglingReference
  /-- A pass used up its visits, so the other findings are partial. -/
  | didNotConverge
  | deadCode
  deriving DecidableEq, Repr

namespace FindingKind

def all : List FindingKind :=
  [.useAfterMove, .borrowAcrossMove, .aliasingConflict, .danglingReference, .didNotConverge, .deadCode]

def render : FindingKind → String
  | .useAfterMove => "UseAfterMove"
  | .borrowAcrossMove => "BorrowAcrossMove"
  | .aliasingConflict => "AliasingConflict"
  | .danglingReference => "DanglingReference"
  | .didNotConverge => "AnalysisDidNotConverge"
  | .deadCode => "DeadCode"

/-- The kind of a name, or the complaint that there is none. -/
def ofName (name : String) : Except String FindingKind :=
  match all.find? fun k => k.render == name with
  | some k => .ok k
  | none => .error (Text.quote name ++ " is not a valid ConflictKind")

/-- A lint never affects the verdict. -/
def isLint : FindingKind → Bool
  | .deadCode => true
  | _ => false

def severity (k : FindingKind) : String := if k.isLint then "warning" else "error"

end FindingKind

structure Finding where
  kind : FindingKind
  /-- The place as text. -/
  place : String
  point : Location
  message : String
  related : Option Json := none
  /-- The loan it is about; findings about none come first. -/
  loan : Option Int := none

namespace Finding

/-- Findings with equal keys say the same thing. -/
def key (r : Finding) : FindingKind × String × Location := (r.kind, r.place, r.point)

/-- The number of the loan, before all loans if there is none. -/
def rank (r : Finding) : Int := r.loan.getD (-1)

/-- By point, then by loan, then by the name of the kind, then by place. -/
def order (a b : Finding) : Ordering :=
  (compare a.point b.point).then <| (compare a.rank b.rank).then <|
    (compare a.kind.render b.kind.render).then (compare a.place b.place)

def toJson (r : Finding) : Json :=
  .obj [("kind", .str r.kind.render), ("place", .str r.place),
    ("point", r.point.toJson), ("related", r.related.getD .null),
    ("message", .str r.message), ("severity", .str r.kind.severity)]

end Finding

end Ownership
