import Ownership.Source.Error
import Ownership.Text.CodePoint
import Ownership.Text.Hex

/-!
# String literals

What stands between the quotes, with its escapes resolved: one letter for the usual controls, one to
three octal digits, a code point by two, four or eight hexadecimal digits, or a code point by its name
between braces. A backslash before anything else stands for itself, and before a line end it joins the
lines. Which names there are is left open.
-/

namespace Ownership.Source

open Text (CodePoint codeOf codePoint?)

/-- The code points that have a name. -/
abbrev CodeNames := List Char → Option CodePoint

/-- The character a one-letter escape stands for. -/
def letterEscape? (c : Char) : Option Char :=
  if c = '\\' ∨ c = '"' ∨ c.toNat = 0x27 then some c
  else match c with
    | 'a' => some (Char.ofNat 0x07)
    | 'b' => some (Char.ofNat 0x08)
    | 'f' => some (Char.ofNat 0x0c)
    | 'n' => some (Char.ofNat 0x0a)
    | 'r' => some (Char.ofNat 0x0d)
    | 't' => some (Char.ofNat 0x09)
    | 'v' => some (Char.ofNat 0x0b)
    | _ => none

/-- The number of digits that an escape by code point takes. -/
def codeWidth? : Char → Option Nat
  | 'x' => some 2
  | 'u' => some 4
  | 'U' => some 8
  | _ => none

def isOctal (c : Char) : Bool := '0' ≤ c && c ≤ '7'

/-- The name that stands between braces at the start of a text. -/
def braced? : List Char → Option (List Char)
  | '\x7b' :: cs =>
    let name := cs.takeWhile (· ≠ '\x7d')
    if name.isEmpty ∨ name.length = cs.length then none else some name
  | _ => none

/-- What stands behind a backslash: the code points meant, and how many characters were read. -/
def escape? (names : CodeNames) : List Char → Option (List CodePoint × Nat)
  | [] => none
  | c :: cs =>
    if c = '\r' then some ([], 1)
    else if let some d := letterEscape? c then some ([codeOf d], 1)
    else if isOctal c then
      let ds := (c :: cs).take 3 |>.takeWhile isOctal
      some ([codeOf (Char.ofNat (ds.foldl (fun n d => 8 * n + (d.toNat - 0x30)) 0))], ds.length)
    else if let some w := codeWidth? c then
      let ds := cs.take w
      if ds.length = w then
        ((Text.ofHex? ds).bind codePoint?).map fun d => ([d], w + 1)
      else none
    else if c = 'N' then do
      let name ← braced? cs
      let d ← names name
      pure ([d], name.length + 3)
    else some ([codeOf '\\', codeOf c], 1)

/-- The text between the quotes with its escapes resolved, at most `n` of its parts. -/
def unescape (names : CodeNames) : (n : Nat) → List Char → Option (List CodePoint)
  | 0, _ => some []
  | _ + 1, [] => some []
  | n + 1, c :: cs =>
    if c = '\r' then none
    else if c = '\\' then do
      let (ds, k) ← escape? names cs
      let rest ← unescape names n (cs.drop k)
      pure (ds ++ rest)
    else (unescape names n cs).map (codeOf c :: ·)

/-- The text a string literal stands for, quotes included. -/
def evalString (names : CodeNames) (literal : String) : Except Error (List CodePoint) :=
  let inner := (literal.toList.drop 1).dropLast
  if inner.contains (Char.ofNat 0) then .error .nullInLiteral
  else match unescape names inner.length inner with
    | some cs => .ok cs
    | none => .error .badLiteral

end Ownership.Source
