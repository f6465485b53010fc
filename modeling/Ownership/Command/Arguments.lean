import Ownership.Text.Numeral
import Ownership.Text.Quoted

/-!
# The words of a run

A run is asked for in words: switches and one source, in any order. Reading them takes two steps.
First each word is looked at on its own: is it a switch, the mark that ends the switches, or plain?
Then the words are taken from left to right, a switch with a value together with the plain word that
follows it. An unclear word is refused in the first step, so before anything else that is wrong.

* `readWord` says what a single word is,
* `Reading.step` takes one word,
* `Arguments.ofWords` reads a whole run.
-/

namespace Ownership.Command

/-! ## 1. Switches -/

inductive Switch where
  | help
  | json
  | function
  | maxVisits
  | jobs
  | noDeadCodeLint
  | dumpGraph
  | verbose
  deriving DecidableEq, Repr

namespace Switch

def takesValue : Switch → Bool
  | .function | .maxVisits | .jobs => true
  | _ => false

/-- The spellings of all switches, in the order in which they are offered. -/
def spellings : List (String × Switch) :=
  [("-h", .help), ("--help", .help), ("--json", .json), ("--function", .function),
   ("--max-iterations", .maxVisits), ("--jobs", .jobs), ("--no-dead-code-lint", .noDeadCodeLint),
   ("--dump-cfg", .dumpGraph), ("-v", .verbose), ("--verbose", .verbose)]

def ofSpelling? (text : List Char) : Option Switch := spellings.lookup (String.ofList text)

/-- The switch of a single letter. -/
def ofLetter? (c : Char) : Option Switch := ofSpelling? ['-', c]

/-- The spellings that go on from what is written. -/
def completions (text : List Char) : List (String × Switch) :=
  spellings.filter fun e => text.isPrefixOf e.1.toList

/-- A switch as messages name it: all its spellings. -/
def label (s : Switch) : String :=
  "/".intercalate ((spellings.filter fun e => e.2 == s).map Prod.fst)

end Switch

/-! ## 2. What can be wrong -/

inductive Refusal where
  /-- A shortened switch that several spellings go on from. -/
  | ambiguous (word : String) (spellings : List String)
  | expectedValue (s : Switch)
  | notANumber (s : Switch) (text : String)
  /-- A value attached to a switch that takes none. -/
  | ignoredValue (s : Switch) (text : String)
  | missingSource
  | unrecognized (words : List String)

def Refusal.message : Refusal → String
  | .ambiguous w ss => s!"ambiguous option: {w} could match " ++ ", ".intercalate ss
  | .expectedValue s => s!"argument {s.label}: expected one argument"
  | .notANumber s t => s!"argument {s.label}: invalid int value: " ++ Text.quote t
  | .ignoredValue s t => s!"argument {s.label}: ignored explicit argument " ++ Text.quote t
  | .missingSource => "the following arguments are required: source"
  | .unrecognized ws => "unrecognized arguments: " ++ " ".intercalate ws

/-- The line that tells of a refusal. -/
def Refusal.line (r : Refusal) : String := "borrowck: error: " ++ r.message

/-- Why the words do not lead to a run. -/
inductive Stop where
  | help
  | refused (r : Refusal)

/-! ## 3. Single words -/

/-- The word that ends the switches. -/
def endMark : String := "--"

inductive Word where
  | plain (text : String)
  /-- The first `--`: every word after it is plain. -/
  | mark
  /-- A switch, written with one dash or two, and what is attached to it. -/
  | switch (s : Switch) (short : Bool) (attached : Option String)
  /-- A word in the form of a switch that is none. -/
  | unknown (text : String)

/-- What stands before the first equals sign, and after it if there is one. -/
def cutAtEquals (cs : List Char) : List Char × Option String :=
  match cs.dropWhile (· != '=') with
  | [] => (cs, none)
  | _ :: r => (cs.takeWhile (· != '='), some (String.ofList r))

/-- Digits, or a point with digits after it and perhaps before it. -/
def isNumber (cs : List Char) : Bool :=
  let isDigit (c : Char) : Bool := (Text.digit? c).isSome
  match cs.dropWhile isDigit with
  | [] => !cs.isEmpty
  | '.' :: r => !r.isEmpty && r.all isDigit
  | _ => false

/-- `cs` without a line end after it. -/
def withoutLineEnd (cs : List Char) : List Char :=
  if cs.getLast? == some '\n' then cs.dropLast else cs

/-- A word after a dash that spells no switch: a negative number and a word with a space are plain. -/
def unspelled (text : String) : Word :=
  if isNumber (withoutLineEnd (text.toList.drop 1)) || text.toList.contains ' ' then .plain text
  else .unknown text

/-- A single word. A long switch may be shortened as long as one spelling goes on from it; to a short
    one the letters that follow are attached. -/
def readWord (text : String) : Except Refusal Word :=
  match text.toList with
  | '-' :: c :: cs =>
    let (name, attached) := cutAtEquals ('-' :: c :: cs)
    match Switch.ofSpelling? name with
    | some s => .ok (.switch s (c != '-') attached)
    | none =>
      if c == '-' then
        match Switch.completions name with
        | [] => .ok (unspelled text)
        | [(_, s)] => .ok (.switch s false attached)
        | es => .error (.ambiguous text (es.map Prod.fst))
      else match Switch.ofLetter? c with
        | some s => .ok (.switch s true (some (String.ofList cs)))
        | none => .ok (unspelled text)
  | _ => .ok (.plain text)

def readWords : List String → Except Refusal (List Word)
  | [] => .ok []
  | t :: ts =>
    if t == endMark then .ok (.mark :: ts.map .plain)
    else do
      let w ← readWord t
      let ws ← readWords ts
      return w :: ws

/-! ## 4. The run as a whole -/

/-- What the switches ask for. A value can be attached to a switch as the mark that ends the switches;
    the mark is taken out again, and the switch is given with nothing in it: `none` among the functions,
    `some none` for a number. -/
structure Options where
  json : Bool := false
  /-- The functions to check; all of them if there are no entries. -/
  functions : List (Option String) := []
  maxVisits : Option (Option Int) := none
  jobs : Option (Option Int) := none
  lintDeadCode : Option Bool := none
  dumpGraph : Bool := false
  verbosity : Nat := 0

structure Arguments extends Options where
  source : String

namespace Options

variable (o : Options)

/-- A switch without a value. -/
def set : Switch → Except Stop Options
  | .help => .error .help
  | .json => .ok { o with json := true }
  | .noDeadCodeLint => .ok { o with lintDeadCode := some false }
  | .dumpGraph => .ok { o with dumpGraph := true }
  | .verbose => .ok { o with verbosity := o.verbosity + 1 }
  | s => .error (.refused (.expectedValue s))

/-- The number in the value of a switch. -/
def numberIn (s : Switch) : Option String → Except Stop (Option Int)
  | none => .ok none
  | some t => match Text.readInt? t with
    | some n => .ok (some n)
    | none => .error (.refused (.notANumber s t))

/-- A switch with its value. -/
def give (s : Switch) (value : Option String) : Except Stop Options :=
  match s with
  | .function => .ok { o with functions := o.functions ++ [value] }
  | .maxVisits => (numberIn s value).map fun n => { o with maxVisits := some n }
  | .jobs => (numberIn s value).map fun n => { o with jobs := some n }
  | _ => .error (.refused (.ignoredValue s (value.getD endMark)))

/-- A switch with what is attached to it. -/
def attach (s : Switch) (text : String) : Except Stop Options :=
  o.give s (if text == endMark then none else some text)

end Options

/-- The switches of a short word, one for each letter. -/
def letters (s : Switch) : List Char → Except Refusal (List Switch)
  | [] => .ok [s]
  | c :: cs => match Switch.ofLetter? c with
    | some t => (s :: ·) <$> letters t cs
    | none => .error (.ignoredValue s (String.ofList (c :: cs)))

/-- A run as far as its words have been taken. -/
structure Reading extends Options where
  source : Option String := none
  /-- The source was the last word: a mark after it belongs to it. -/
  fresh : Bool := false
  /-- A switch that waits for its value. -/
  pending : Option Switch := none
  /-- The words that are of no use, in order. -/
  strays : List String := []

namespace Reading

variable (r : Reading)

def stray (text : String) : Reading := { r with strays := r.strays ++ [text], fresh := false }

/-- Take a word while no switch waits for a value. -/
def take : Word → Except Stop Reading
  | .plain t => .ok (if r.source.isNone then { r with source := some t, fresh := true } else r.stray t)
  | .mark => .ok (if r.source.isNone || r.fresh then { r with fresh := false } else r.stray endMark)
  | .unknown t => .ok (r.stray t)
  | .switch s true (some t) =>
    match if t.isEmpty then .error (.ignoredValue s t) else letters s t.toList with
    | .ok ss => do
      let o ← ss.foldlM Options.set r.toOptions
      return { r with toOptions := o, fresh := false }
    | .error e => .error (.refused e)
  | .switch s false (some t) => do
    let o ← r.toOptions.attach s t
    return { r with toOptions := o, fresh := false }
  | .switch s _ none => do
    if s.takesValue then return { r with pending := some s, fresh := false }
    let o ← r.toOptions.set s
    return { r with toOptions := o, fresh := false }

/-- Take a word; a switch that waits for its value wants a plain one. -/
def step (w : Word) : Except Stop Reading :=
  match r.pending, w with
  | none, w => r.take w
  | some s, .plain v => do
    let o ← r.toOptions.give s (some v)
    return { r with toOptions := o, pending := none }
  | some s, _ => .error (.refused (.expectedValue s))

/-- All words have been taken. -/
def finish : Except Stop Arguments :=
  match r.pending, r.source, r.strays with
  | some s, _, _ => .error (.refused (.expectedValue s))
  | none, none, _ => .error (.refused .missingSource)
  | none, some t, [] => .ok { toOptions := r.toOptions, source := t }
  | none, some _, ws => .error (.refused (.unrecognized ws))

end Reading

/-- Read the words of a run. -/
def Arguments.ofWords (texts : List String) : Except Stop Arguments := do
  let ws ← (readWords texts).mapError .refused
  let r ← ws.foldlM Reading.step {}
  r.finish

end Ownership.Command
