import Ownership.Text.Quoted

/-!
# Tokens

The pieces a source text is made of: names, numbers, string literals, marks and words. A word is a
name with a meaning of its own; whether a name is read as a word depends on where it stands.
-/

namespace Ownership.Source

/-- A place in the text, both counted from 1, columns in characters. -/
structure Position where
  line : Nat
  column : Nat
  deriving DecidableEq, Repr

/-- The position behind a character; only a line feed starts a new line. -/
def Position.after (p : Position) (c : Char) : Position :=
  if c = '\n' then ⟨p.line + 1, 1⟩ else ⟨p.line, p.column + 1⟩

def Position.afterAll (p : Position) (cs : List Char) : Position := cs.foldl Position.after p

/-- What a token is. -/
inductive TokenKind where
  | name
  | number
  | string
  | word (text : String)
  | mark (text : String)
  /-- The end of the text. -/
  | ending
  deriving DecidableEq, Repr

/-- The marks and what they are called. -/
def marks : List (String × String) :=
  [("->", "__ANON_0"), ("&", "AMPERSAND"), (":", "COLON"), (",", "COMMA"), (".", "DOT"), ("=", "EQUAL"),
   ("\x7b", "LBRACE"), ("(", "LPAR"), ("[", "LSQB"), ("\x7d", "RBRACE"), (")", "RPAR"), ("]", "RSQB"),
   (";", "SEMICOLON"), ("*", "STAR")]

/-- The words; the lone underscore is one of them. -/
def words : List String :=
  ["type", "owned", "scalar", "struct", "copy", "fn", "let", "temp", "global", "drop", "eval", "move",
   "clone", "alloc", "call", "mut", "true", "false", "goto", "branch", "return", "unreachable", "_"]

/-- What a kind of token is called in messages. -/
def TokenKind.label : TokenKind → String
  | .name => "NAME"
  | .number => "INT"
  | .string => "ESCAPED_STRING"
  | .word "_" => "UNDERSCORE"
  | .word w => String.ofList (w.toList.map Char.toUpper)
  | .mark m => (marks.lookup m).getD m
  | .ending => "$END"

structure Token where
  kind : TokenKind
  text : String
  pos : Position
  deriving DecidableEq, Repr

/-- A token in a message. -/
def Token.record (t : Token) : String :=
  "Token(" ++ Text.quote t.kind.label ++ ", " ++ Text.quote t.text ++ ")"

end Ownership.Source
