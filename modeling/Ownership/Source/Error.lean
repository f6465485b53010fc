import Ownership.Source.Token
import Ownership.Text.Numeral
import Ownership.Types.Table

/-!
# What can be wrong with a source text

Most causes come with the position to blame. Four do not concern the text as such and carry none: a
string literal or a number that cannot be evaluated, and the type name `Unknown` being taken.
-/

namespace Ownership.Source

/-- Why a text is refused. -/
inductive Cause where
  | unexpected (token : Token)
  | noMatch (c : Char) (pos : Position)
  | badType (e : TypeError)
  | duplicateField (field struct : String)
  | unknownType (name : String)
  | declaredTwice (name function : String)
  | reservedResult (name : String)
  | wrongLabel (index : Nat) (label : String)
  | notALabel (label : String)
  | duplicateFunction (name : String)
  | notOneFunction (count : Nat)

/-- The characters at which a message is cut off after its first line. -/
def isLineBreak (c : Char) : Bool :=
  [0x0a, 0x0b, 0x0c, 0x0d, 0x1c, 0x1d, 0x1e, 0x85, 0x2028, 0x2029].contains c.toNat

def Cause.message : Cause → String
  | .unexpected t =>
    s!"Unexpected token {t.record} at line {t.pos.line}, column {t.pos.column}."
  | .noMatch c p =>
    if isLineBreak c then "No terminal matches '"
    else s!"No terminal matches '{c}' in the current parser context, at line {p.line} col {p.column}"
  | .badType e => e.message
  | .duplicateField f s => s!"duplicate field '{f}' in struct '{s}'"
  | .unknownType n => s!"unknown type '{n}'"
  | .declaredTwice n f => s!"'{n}' is declared twice in '{f}'"
  | .reservedResult n => s!"'{n}' is reserved for the return place"
  | .wrongLabel i l => s!"expected block label 'bb{i}', got '{l}'"
  | .notALabel l => s!"block labels look like 'bb0', got '{l}'"
  | .duplicateFunction n => s!"duplicate function '{n}'"
  | .notOneFunction n => s!"expected exactly one function, found {n}"

inductive Error where
  /-- The text is refused for a cause, at a position if there is one to blame. -/
  | refused (cause : Cause) (pos : Option Position)
  /-- A string literal with an escape that means nothing, or with a bare line end. -/
  | badLiteral
  /-- A string literal that holds a null character. -/
  | nullInLiteral
  /-- A number of more digits than are read. -/
  | tooManyDigits (count : Nat)
  /-- A type that is given on demand cannot be. -/
  | typeTaken (e : TypeError)

/-- The message, headed by the position if there is one. -/
def Error.message : Error → String
  | .refused c none => c.message
  | .refused c (some p) => s!"{p.line}:{p.column}: " ++ c.message
  | .badLiteral => "malformed string literal"
  | .nullInLiteral => "source code string cannot contain null bytes"
  | .tooManyDigits n =>
    s!"Exceeds the limit ({Text.digitLimit} digits) for integer string conversion: value has {n} digits; use sys.set_int_max_str_digits() to increase the limit"
  | .typeTaken e => e.message

end Ownership.Source
