import Ownership.Text.Hex

/-!
# JSON text

Values, and two ways to write them. Both write the members of an object in the order of their keys
and keep to printable ASCII. `Json.line` stays on one line; `Json.block` puts every element on a
line of its own, two spaces deeper than the bracket around it.
-/

namespace Ownership

inductive Json where
  | null
  | bool (b : Bool)
  | int (n : Int)
  | str (s : String)
  | arr (xs : List Json)
  | obj (members : List (String × Json))
  deriving Inhabited, Repr

namespace Json

open Ownership.Text

/-! ## 1. Texts -/

/-- A code point beyond the first plane as its two halves. -/
def surrogates (n : Nat) : List Char :=
  let m := n - 0x10000
  ['\\', 'u'] ++ hex 4 (0xd800 + m / 0x400) ++ ['\\', 'u'] ++ hex 4 (0xdc00 + m % 0x400)

/-- One character inside a JSON string. -/
def escapeChar (c : Char) : List Char :=
  if c = '"' ∨ c = '\\' then ['\\', c]
  else if c = '\n' then ['\\', 'n']
  else if c = '\r' then ['\\', 'r']
  else if c = '\t' then ['\\', 't']
  else if c.toNat = 0x0c then ['\\', 'f']
  else if c.toNat = 0x08 then ['\\', 'b']
  else if 0x20 ≤ c.toNat ∧ c.toNat ≤ 0x7e then [c]
  else if c.toNat < 0x10000 then ['\\', 'u'] ++ hex 4 c.toNat
  else surrogates c.toNat

/-- A text as a JSON string. -/
def string (s : String) : String :=
  String.ofList ('"' :: s.toList.flatMap escapeChar ++ ['"'])

/-! ## 2. Key order -/

mutual
/-- The value with the members of every object in the order of their keys. -/
def sorted : Json → Json
  | .arr xs => .arr (sortedAll xs)
  | .obj ms => .obj ((sortedMembers ms).mergeSort fun a b => !(decide (b.1 < a.1)))
  | v => v

def sortedAll : List Json → List Json
  | [] => []
  | x :: xs => x.sorted :: sortedAll xs

def sortedMembers : List (String × Json) → List (String × Json)
  | [] => []
  | (k, x) :: ms => (k, x.sorted) :: sortedMembers ms
end

/-! ## 3. On one line -/

mutual
def writeLine : Json → String
  | .null => "null"
  | .bool true => "true"
  | .bool false => "false"
  | .int n => toString n
  | .str s => string s
  | .arr xs => "[" ++ ", ".intercalate (lineItems xs) ++ "]"
  | .obj ms => "\x7b" ++ ", ".intercalate (lineMembers ms) ++ "\x7d"

def lineItems : List Json → List String
  | [] => []
  | x :: xs => writeLine x :: lineItems xs

def lineMembers : List (String × Json) → List String
  | [] => []
  | (k, x) :: ms => (string k ++ ": " ++ writeLine x) :: lineMembers ms
end

/-- The value on one line. -/
def line (v : Json) : String := writeLine v.sorted

/-! ## 4. One element per line -/

/-- The items between brackets, each on a line of its own; no items leave the brackets empty. -/
def bracketed (depth : Nat) (opening closing : String) (items : List String) : String :=
  if items.isEmpty then opening ++ closing
  else
    let pad := String.ofList (List.replicate (2 * (depth + 1)) ' ')
    opening ++ "\n" ++ ",\n".intercalate (items.map (pad ++ ·)) ++ "\n"
      ++ String.ofList (List.replicate (2 * depth) ' ') ++ closing

mutual
def writeBlock (depth : Nat) : Json → String
  | .arr xs => bracketed depth "[" "]" (blockItems (depth + 1) xs)
  | .obj ms => bracketed depth "\x7b" "\x7d" (blockMembers (depth + 1) ms)
  | v => writeLine v

def blockItems (depth : Nat) : List Json → List String
  | [] => []
  | x :: xs => writeBlock depth x :: blockItems depth xs

def blockMembers (depth : Nat) : List (String × Json) → List String
  | [] => []
  | (k, x) :: ms => (string k ++ ": " ++ writeBlock depth x) :: blockMembers depth ms
end

/-- The value over several lines. -/
def block (v : Json) : String := writeBlock 0 v.sorted

end Json

end Ownership
