import Ownership.Verify.Analysis

/-!
# Checking a program

A program is a type table and functions by name. They are checked in the order of their names, and
the first one that is malformed is what the check reports.

What the passes have to say about their own work is kept as notes. They follow from the analysis
alone, so nothing has to be written down while the passes run.
-/

namespace Ownership

structure Program where
  types : TypeTable
  functions : Roster Draft

/-- Entries by name. -/
def Roster.sorted {α : Type} (r : Roster α) : Roster α :=
  r.mergeSort fun a b => !(decide (b.1 < a.1))

/-! ## 1. Notes -/

inductive Level where
  | debug
  | warning
  deriving DecidableEq, Repr

def Level.render : Level → String
  | .debug => "DEBUG"
  | .warning => "WARNING"

/-- A remark of a part of the checker on its own work. -/
structure Note where
  part : String
  level : Level
  text : String

def Note.render (n : Note) : String :=
  "borrowck." ++ n.part ++ ": " ++ n.level.render ++ ": " ++ n.text

/-- The remark on a graph. -/
def Graph.note (g : Graph) (name : String) : Note :=
  ⟨"cfg", .debug, s!"{name}: {g.size} blocks, {g.reachable.length} reachable, {g.backEdges.length} back edges ({g.irreducibleEdges.length} irreducible)"⟩

/-- The remark of a pass that used up its visits. -/
def capNote (part what name : String) (converged : Bool) (maxVisits : Nat) : List Note :=
  if converged then []
  else [⟨part, .warning, s!"{name}: {what} hit the iteration cap ({maxVisits})"⟩]

namespace Analysis

variable (a : Analysis)

/-- How a pass ended, in a word. -/
def ended (converged : Bool) : String := if converged then "converged" else "stopped"

/-- The remarks on one function, in the order in which the parts do their work. -/
def notes (s : Settings) : List Note :=
  let name := a.function.name
  let report := a.report s
  [a.graph.note name]
    ++ capNote "moves" "move analysis" name a.moves.converged s.maxVisits
    ++ [⟨"moves", .debug,
        s!"{name}: move analysis {ended a.moves.converged} after {a.moves.visits} block visits"⟩]
    ++ capNote "liveness" "liveness" name a.live.converged s.maxVisits
    ++ [⟨"liveness", .debug,
        s!"{name}: liveness over {a.live.tracked.size} roots after {a.live.visits} block visits"⟩]
    ++ capNote "loans" "loan analysis" name a.loans.converged s.maxVisits
    ++ [⟨"loans", .debug,
        s!"{name}: {a.loans.loans.length} loans after {a.loans.visits} block visits ({ended a.loans.converged})"⟩,
      ⟨"engine", .debug,
        s!"{name}: {report.conflicts.length} conflicts, {report.lints.length} lints ({a.loans.loans.length} loans)"⟩]

end Analysis

/-! ## 2. Programs -/

namespace Program

variable (p : Program)

/-- The reports on all functions, in the order of their names. -/
def verify (s : Settings) : Except Malformed (Roster Report) :=
  p.functions.sorted.mapM fun (name, d) => (name, ·) <$> d.verify p.types s

/-- Several functions are checked side by side. -/
def isParallel (s : Settings) : Bool := 1 < s.jobs && 1 < p.functions.length

/-- The remarks on a draft: none if it is malformed. -/
def draftNotes (s : Settings) (d : Draft) : List Note :=
  match d.validate p.types with
  | .ok f => (f.analyse p.types s.maxVisits).notes s
  | .error _ => []

/-- The remarks on the whole check. One by one, it stops at the first malformed function; side by
    side, the others are looked at as well. -/
def notes (s : Settings) : List Note :=
  let drafts := p.functions.sorted.map Prod.snd
  if p.isParallel s then
    ⟨"engine", .debug, s!"verifying {drafts.length} functions on {s.jobs} threads"⟩
      :: drafts.flatMap (p.draftNotes s)
  else
    (drafts.takeWhile fun d => (d.validate p.types).isOk).flatMap (p.draftNotes s)

end Program

end Ownership
