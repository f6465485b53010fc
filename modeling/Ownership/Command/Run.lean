import Ownership.Command.Arguments
import Ownership.Command.File
import Ownership.Source.Build
import Ownership.Verify.Program

/-!
# A run from its arguments to its outcome

The order of work decides which failure shows: settings, reading, parsing, choice of functions, then
the graphs or the check. A failure of these is an outcome of its own. A few are not handled by the run
and end it without one.
-/

namespace Ownership.Command

/-- What a run leaves behind. -/
structure Outcome where
  exit : Nat
  stdout : String := ""
  stderr : String := ""

/-- What ends a run without an outcome. -/
inductive Abort where
  /-- The path holds a null character. -/
  | nullInPath
  /-- The file holds bytes that are no text. -/
  | undecodable
  /-- A number was given with nothing in it. -/
  | blankNumber (e : Settings.Error)
  /-- A function was named with nothing. -/
  | blankName
  /-- The source cannot be built, for a reason that blames no position. -/
  | source (e : Source.Error)

def Abort.message : Abort → String
  | .nullInPath => "embedded null byte"
  | .undecodable => "the file is not UTF-8 text"
  | .blankNumber e => e.message
  | .blankName => "unhashable type: 'list'"
  | .source e => e.message

/-! ## 1. Failures -/

inductive Phase where
  | config
  | io
  | parser
  | driver
  | validate
  deriving DecidableEq, Repr

def Phase.render : Phase → String
  | .config => "config"
  | .io => "io"
  | .parser => "parser"
  | .driver => "driver"
  | .validate => "validate"

/-- The input cannot be checked. -/
structure Failure where
  phase : Phase
  message : String
  position : Option Source.Position := none
  function : Option String := none
  point : Option Point := none

namespace Failure

variable (x : Failure)

def toJson (file : String) : Json :=
  let number (n : Option Nat) : Json := (n.map fun k => Json.int k).getD .null
  .obj ([("phase", .str x.phase.render), ("message", .str x.message), ("severity", .str "error"),
      ("file", .str file), ("function", (x.function.map Json.str).getD .null),
      ("line", number (x.position.map (·.line))), ("column", number (x.position.map (·.column)))]
    ++ (x.point.map fun p => ("point", p.toJson)).toList)

/-- The failure in a line, with question marks for a position that is not known. -/
def line (file : String) : String :=
  let place := match x.position with
    | some p => s!"{p.line}:{p.column}"
    | none => "?:?"
  s!"{file}:{place}: error: {x.message}"

end Failure

def Failure.ofMalformed (m : Malformed) : Failure :=
  { phase := .validate, message := m.fault.message, function := some m.function, point := m.point }

/-! ## 2. The work -/

/-- A text printed as a line, nothing for no text. -/
def printed (text : String) : String := if text.isEmpty then "" else text ++ "\n"

namespace Arguments

variable (a : Arguments)

/-- The path as it is shown. -/
def file : String := (PathName.ofText a.source).text

def settings (env : List (String × String)) : Except Settings.Error Settings :=
  Settings.ofEnvironment env ⟨a.maxVisits, a.lintDeadCode, a.jobs⟩

/-- The remarks that are asked for, each in a line: warnings always, the others from the second call
    for them on. -/
def remarks (notes : List Note) : String :=
  String.join ((notes.filter fun n => n.level == .warning || 2 ≤ a.verbosity).map fun n =>
    n.render ++ "\n")

/-- The outcome of a failure, after the remarks made up to it. -/
def fail (notes : List Note) (x : Failure) : Outcome :=
  if a.json then
    { exit := 2, stderr := a.remarks notes,
      stdout := (Json.obj [("exit_code", .int 2), ("diagnostics", .arr [x.toJson a.file])]).line ++ "\n" }
  else { exit := 2, stderr := a.remarks notes ++ x.line a.file ++ "\n" }

/-- The program with the named functions only, or the first name that is not in it. -/
def choose (names : List String) (p : Program) : Except String Program :=
  if names.isEmpty then .ok p
  else do
    let chosen ← names.mapM fun n => match p.functions.get? n with
      | some d => .ok (n, d)
      | none => .error n
    return { p with functions := Roster.ofPairs chosen }

/-- The graphs of all functions. -/
def dump (p : Program) : Outcome :=
  let sound := p.functions.sorted.takeWhile fun e => (e.2.validate p.types).isOk
  let notes := sound.flatMap fun e => match e.2.validate p.types with
    | .ok f => [f.graph.note f.name]
    | .error _ => []
  match p.functions.sorted.mapM fun (n, d) => do
      let f ← d.validate p.types
      return (n, f.graph.summary f.counts) with
  | .error m => a.fail notes (.ofMalformed m)
  | .ok rows =>
    { exit := 0, stderr := a.remarks notes,
      stdout := (Json.obj [("functions", .obj rows)]).block ++ "\n" }

/-- The reports on all functions. -/
def check (p : Program) (s : Settings) : Outcome :=
  match p.verify s with
  | .error m => a.fail (p.notes s) (.ofMalformed m)
  | .ok reports =>
    let exit := if reports.all fun e => e.2.ok then 0 else 1
    if a.json then
      { exit, stderr := a.remarks (p.notes s),
        stdout := (Json.obj [("exit_code", .int exit),
          ("functions", .obj (reports.map fun e => (e.1, e.2.toJson)))]).block ++ "\n" }
    else
      { exit, stderr := a.remarks (p.notes s)
          ++ String.join (reports.map fun e => printed (e.2.text a.file)) }

/-- The run over a program. A function named with nothing ends it, whatever the other names are. -/
def work (p : Program) (s : Settings) : Except Abort Outcome :=
  match a.functions.mapM id with
  | none => .error .blankName
  | some names => match choose names p with
    | .error n => .ok (a.fail [] { phase := .driver, message := s!"no function named '{n}'" })
    | .ok p => .ok (if a.dumpGraph then a.dump p else a.check p s)

/-- The run, given the names of code points, the environment and what reading the file gave. -/
def run (names : Source.CodeNames) (env : List (String × String))
    (input : Except ReadError ByteArray) : Except Abort Outcome := do
  match a.settings env with
  | .error .nothingGiven => throw (.blankNumber .nothingGiven)
  | .error e => return a.fail [] { phase := .config, message := e.message }
  | .ok s =>
    if a.source.toList.contains (Char.ofNat 0) then throw .nullInPath
    match input with
    | .error e => return a.fail [] { phase := .io, message := "cannot read input: " ++ e.message }
    | .ok bytes =>
      let some text := decode? bytes | throw .undecodable
      match Source.parse (Source.evalString names) text with
      | .error (.refused c pos) =>
        return a.fail [] { phase := .parser, message := c.message, position := pos }
      | .error e => throw (.source e)
      | .ok c => a.work c.program s

end Arguments

end Ownership.Command
