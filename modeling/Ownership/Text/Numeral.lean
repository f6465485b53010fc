import Ownership.Text.Digit

/-!
# Whole numbers in text

Two readings. `readDigits` takes a plain run of ASCII digits, as a lexer hands it over. `readInt?`
takes what a person may type: blanks around it, one sign directly before the digits, single
underscores between digits, digits of any script. Both refuse more than `digitLimit` digits, and no
number with more digits is written out.
-/

namespace Ownership.Text

/-- The longest run of digits that is read as a number. -/
def digitLimit : Nat := 4300

/-- The number has few enough digits to be written out. -/
def isShort (n : Int) : Bool := n.natAbs < Nat.pow 10 digitLimit

/-- The number written by the digit values `ds`, most significant first. -/
def ofDigits (ds : List Nat) : Nat :=
  ds.foldl (fun n d => 10 * n + d) 0

/-- A run of ASCII digits as a number, or its length when it is too long to be read. -/
def readDigits (cs : List Char) : Except Nat Nat :=
  if cs.length ≤ digitLimit then .ok (ofDigits (cs.map fun c => c.toNat - '0'.toNat))
  else .error cs.length

/-- A character as the reader sees it: outside ASCII a blank is a space, a digit is its ASCII twin
    and everything else is a character no number holds. -/
def plain (c : Char) : Char :=
  if c.toNat < 127 then c
  else if isWideBlank c then ' '
  else match digit? c with
    | some d => Char.ofNat ('0'.toNat + d)
    | none => '?'

/-- Digits with single underscores between them, `fresh` at a place where an underscore may not
    stand. -/
def digitRun? (fresh : Bool) : List Char → Option (List Nat)
  | [] => if fresh then none else some []
  | c :: cs =>
    if c = '_' then if fresh then none else digitRun? true cs
    else if c.isDigit then (digitRun? false cs).map fun ds => (c.toNat - '0'.toNat) :: ds
    else none

/-- An optional sign, then the digits. -/
def signed? : List Char → Option (Int × List Nat)
  | '-' :: cs => (digitRun? true cs).map (-1, ·)
  | '+' :: cs => (digitRun? true cs).map (1, ·)
  | cs => (digitRun? true cs).map (1, ·)

/-- `cs` without the blanks at both ends. -/
def trimBlanks (cs : List Char) : List Char :=
  ((cs.dropWhile isPlainBlank).reverse.dropWhile isPlainBlank).reverse

/-- The number a text states, if it states one. -/
def readInt? (s : String) : Option Int := do
  let (sign, ds) ← signed? (trimBlanks (s.toList.map plain))
  if ds.length ≤ digitLimit then some (sign * ofDigits ds) else none

end Ownership.Text
