import Ownership.Conflict.Detection
import Ownership.Function.Validation
import Ownership.Report.Basic
import Ownership.Settings

/-!
# Checking a function

The three passes over a function, the conflicts they show, and the report made of them. A pass that
used up its visits is a finding of its own, and so is every block that is never reached.
-/

namespace Ownership

/-- Everything found out about a function. -/
structure Analysis where
  function : Function
  graph : Graph
  moves : MoveFacts
  live : LiveFacts
  loans : LoanFacts
  frames : List Frame
  conflicts : List Conflict

/-- Run the passes and the checks. -/
def Function.analyse (f : Function) (types : TypeTable) (maxVisits : Nat) : Analysis :=
  let g := f.graph
  let moves := f.trackMoves g types maxVisits
  let live := f.trackLive g types maxVisits
  let loans := f.trackLoans g types maxVisits live
  let frames := f.frames g
  { function := f, graph := g, moves := moves, live := live, loans := loans, frames := frames,
    conflicts := f.detect g types moves loans frames }

namespace Analysis

variable (a : Analysis)

/-- The passes that used up their visits. -/
def stalled : List String :=
  [("moves", a.moves.converged), ("liveness", a.live.converged), ("loans", a.loans.converged)].filterMap
    fun (name, converged) => if converged then none else some name

/-- The finding that some pass used up its visits. -/
def stalledFinding (maxVisits : Nat) : List Finding :=
  let passes := a.stalled
  if passes.isEmpty then []
  else
    let name := a.function.name
    let list := ", ".intercalate passes
    [{ kind := .didNotConverge, place := name, point := ⟨0, 0⟩,
       message := s!"analysis of '{name}' did not converge within {maxVisits} block visits ({list}); results are partial",
       related := some (.obj [("passes", .arr (passes.map .str)), ("max_iterations", .int maxVisits)]) }]

/-- The findings about blocks that are never reached. -/
def deadFindings : List Finding :=
  let name := a.function.name
  a.graph.dead.map fun (b : Nat) =>
    { kind := .deadCode, place := s!"bb{b}", point := ⟨b, 0⟩,
      message := s!"block bb{b} of '{name}' is unreachable and was not analysed" }

/-- The report. -/
def report (s : Settings) : Report :=
  Report.build a.function.name (a.conflicts.map Conflict.toFinding ++ a.stalledFinding s.maxVisits
    ++ if s.lintDeadCode then a.deadFindings else [])

end Analysis

/-- Check a function. -/
def Function.check (f : Function) (types : TypeTable) (s : Settings) : Report :=
  (f.analyse types s.maxVisits).report s

/-- Validate a draft and check what it stands for. -/
def Draft.verify (d : Draft) (types : TypeTable) (s : Settings) : Except Malformed Report :=
  (d.validate types).map fun f => f.check types s

end Ownership
