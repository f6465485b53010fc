import Ownership.Report.Finding

/-!
# Reports

The verdict on one function: its findings in order, each said once, conflicts apart from lints. Of
findings with one key the first in order is kept.
-/

namespace Ownership

structure Report where
  function : String
  conflicts : List Finding
  lints : List Finding

namespace Report

/-- Keep the first of the findings with one key, those with a key in `seen` left out. -/
def firsts (seen : List (FindingKind × String × Location)) : List Finding → List Finding
  | [] => []
  | r :: rs => if seen.contains r.key then firsts seen rs else r :: firsts (r.key :: seen) rs

/-- The report of a list of findings. -/
def build (function : String) (findings : List Finding) : Report :=
  let kept := firsts [] (findings.mergeSort fun a b => (Finding.order a b).isLE)
  ⟨function, kept.filter fun r => !r.kind.isLint, kept.filter fun r => r.kind.isLint⟩

def findings (r : Report) : List Finding := r.conflicts ++ r.lints

/-- No conflict was found. -/
def ok (r : Report) : Bool := r.conflicts.isEmpty

def ofKind (r : Report) (k : FindingKind) : List Finding := r.findings.filter fun x => x.kind == k

def toJson (r : Report) : Json :=
  .obj [("function", .str r.function), ("ok", .bool r.ok),
    ("conflicts", .arr (r.conflicts.map Finding.toJson)), ("lints", .arr (r.lints.map Finding.toJson))]

/-- One line for each finding, headed by the label if there is one. -/
def text (r : Report) (label : String) : String :=
  let head := if label.isEmpty then "" else label ++ ":"
  "\n".intercalate (r.findings.map fun x =>
    head ++ r.function ++ ":" ++ x.point.render ++ ": " ++ x.kind.severity ++ ": " ++ x.kind.render
      ++ ": " ++ x.message)

end Report

end Ownership
