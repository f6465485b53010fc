import Ownership.Text.CodePoint
import Ownership.Text.Hex
import Ownership.Text.Printable

/-!
# Quoted text

How a text is shown inside a message: between single quotes, or between double quotes when it holds
a single quote and no double one. The quote in use and the backslash are escaped, line feed,
carriage return and tab have a letter of their own, and an unprintable character is written by its
code point with two, four or eight digits. So is half a surrogate pair.
-/

namespace Ownership.Text

/-- The quote used around `cs`. -/
def quoteFor (cs : List CodePoint) : Char :=
  if cs.contains (codeOf '\'') && !cs.contains (codeOf '"') then '"' else '\''

/-- A code point by its number, in the narrowest of the three widths. -/
def codeEscape (n : Nat) : List Char :=
  if n < 0x100 then ['\\', 'x'] ++ hex 2 n
  else if n < 0x10000 then ['\\', 'u'] ++ hex 4 n
  else ['\\', 'U'] ++ hex 8 n

/-- One character between quotes `q`. -/
def quoteChar (q c : Char) : List Char :=
  if c = q ∨ c = '\\' then ['\\', c]
  else if c = '\n' then ['\\', 'n']
  else if c = '\r' then ['\\', 'r']
  else if c = '\t' then ['\\', 't']
  else if isPrintable c then [c]
  else codeEscape c.toNat

/-- One code point between quotes `q`. -/
def quoteCode (q : Char) (c : CodePoint) : List Char :=
  match charOf? c with
  | some c => quoteChar q c
  | none => codeEscape c.val

/-- The quoted form of a list of code points. -/
def quoteCodes (cs : List CodePoint) : String :=
  let q := quoteFor cs
  String.ofList (q :: cs.flatMap (quoteCode q) ++ [q])

/-- The quoted form of a text. -/
def quote (s : String) : String := quoteCodes (codes s)

end Ownership.Text
