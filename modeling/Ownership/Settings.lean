import Ownership.Text.Numeral
import Ownership.Text.Quoted

/-!
# Settings

How much work a check may do and what it reports. Both numbers are positive; of two that are not,
the number of visits is complained about first. Numbers may come from the environment, where an
empty text counts as none; what is given directly wins, but a text that is no number is refused all
the same. What is given directly may turn out to be nothing at all, which is no positive number
either.
-/

namespace Ownership

structure Settings where
  /-- The number of block visits each pass may use. -/
  maxVisits : Nat := 10000
  /-- Report blocks that are never reached. -/
  lintDeadCode : Bool := true
  /-- How many functions may be checked side by side. -/
  jobs : Nat := 1
  maxVisits_pos : 0 < maxVisits := by decide
  jobs_pos : 0 < jobs := by decide

namespace Settings

inductive Error where
  | visitsNotPositive (n : Int)
  | jobsNotPositive (n : Int)
  | notANumber (variable_ text : String)
  /-- A number was given directly, and nothing was in it. -/
  | nothingGiven

def Error.message : Error → String
  | .visitsNotPositive n => s!"max_iterations must be positive, got {n}"
  | .jobsNotPositive n => s!"jobs must be positive, got {n}"
  | .notANumber v t => v ++ " must be an integer, got " ++ Text.quote t
  | .nothingGiven => "'<' not supported between instances of 'list' and 'int'"

/-- What is given; the rest is as it was. A number given as `some none` is given with nothing in it. -/
structure Overrides where
  maxVisits : Option (Option Int) := none
  lintDeadCode : Option Bool := none
  jobs : Option (Option Int) := none

/-- A number that has to be positive. -/
def positive (complaint : Int → Error) : Option Int → Except Error { n : Nat // 0 < n }
  | none => .error .nothingGiven
  | some n => if h : 0 < n.toNat then .ok ⟨n.toNat, h⟩ else .error (complaint n)

/-- The settings with the given numbers, if both are positive. -/
def make (maxVisits : Option Int) (lintDeadCode : Bool) (jobs : Option Int) : Except Error Settings := do
  let m ← positive .visitsNotPositive maxVisits
  let j ← positive .jobsNotPositive jobs
  return ⟨m.val, lintDeadCode, j.val, m.property, j.property⟩

/-- The settings with some of them replaced. -/
def override (s : Settings) (o : Overrides) : Except Error Settings :=
  make (o.maxVisits.getD (some s.maxVisits)) (o.lintDeadCode.getD s.lintDeadCode)
    (o.jobs.getD (some s.jobs))

/-- The settings of a fresh start. -/
def standard : Settings := {}

def visitsVariable : String := "BORROWCK_MAX_ITERATIONS"

def jobsVariable : String := "BORROWCK_JOBS"

/-- The number an environment variable holds; an empty text counts as none. -/
def readVariable (env : List (String × String)) (name : String) : Except Error (Option Int) :=
  match env.lookup name with
  | none => .ok none
  | some text =>
    if text.isEmpty then .ok none
    else match Text.readInt? text with
      | some n => .ok (some n)
      | none => .error (.notANumber name text)

/-- The settings from environment variables, with some of them given directly. -/
def ofEnvironment (env : List (String × String)) (o : Overrides) : Except Error Settings := do
  let visits ← readVariable env visitsVariable
  let jobs ← readVariable env jobsVariable
  standard.override { o with
    maxVisits := o.maxVisits <|> visits.map some, jobs := o.jobs <|> jobs.map some }

end Settings

end Ownership
