import Ownership.Source.Error

/-!
# Reading tokens

Which token stands at the front of a text depends on what the reader expects there (`Expect`). Where
a name may stand, the longest name is taken, and it is a word only if that word may stand there too.
Where no name may stand, the expected words are recognised by their letters alone, whatever follows
them. A text that begins with nothing expected is read once more without expectations, to say what
was met instead.

Blanks, and comments from `#` or `//` to the end of the line, may stand between any two tokens.
-/

namespace Ownership.Source

/-- What the reader expects: whether a name may stand here, and which words. -/
structure Expect where
  names : Bool := false
  words : List String := []

/-- The rest of the text, where it begins, and where the last token began. -/
structure Cursor where
  rest : List Char
  pos : Position := ⟨1, 1⟩
  last : Position := ⟨1, 1⟩

/-! ## 1. Classes of characters -/

def isBlank (c : Char) : Bool := [0x20, 0x09, 0x0a, 0x0c, 0x0d].contains c.toNat

def isNameStart (c : Char) : Bool := c.isAlpha || c == '_'

def isNameChar (c : Char) : Bool := isNameStart c || c.isDigit

/-! ## 2. Between tokens -/

/-- Drop blanks and comments; `inComment` while the rest of a comment is passed over. -/
def skip (inComment : Bool) : List Char → Position → List Char × Position
  | [], p => ([], p)
  | c :: cs, p =>
    if inComment then skip (c != '\n') cs (p.after c)
    else if isBlank c then skip false cs (p.after c)
    else if c = '#' || (c = '/' && cs.head? == some '/') then skip true cs (p.after c)
    else (c :: cs, p)

/-! ## 3. One token -/

/-- The rest of a string literal up to its closing quote, which no backslash escapes; `escaped`
    behind such a backslash. A literal ends on its line. -/
def stringTail (escaped : Bool) : List Char → Option (List Char)
  | [] => none
  | c :: cs =>
    if c = '\n' then none
    else if escaped then (stringTail false cs).map (c :: ·)
    else if c = '"' then some [c]
    else (stringTail (c == '\\') cs).map (c :: ·)

/-- A name read as a token where the given words count as words. -/
def nameToken (among : List String) (text : String) : TokenKind × String :=
  (if among.contains text then .word text else .name, text)

/-- The token at the front of a text, if nothing in particular is expected. -/
def anyToken? (cs : List Char) : Option (TokenKind × String) :=
  match cs with
  | [] => none
  | c :: rest =>
    if isNameStart c then some (nameToken words (String.ofList (cs.takeWhile isNameChar)))
    else if c.isDigit then some (.number, String.ofList (cs.takeWhile Char.isDigit))
    else if c = '"' then (stringTail false rest).map fun t => (.string, String.ofList (c :: t))
    else ((marks.map Prod.fst).find? fun m => m.toList.isPrefixOf cs).map fun m => (.mark m, m)

/-- The token at the front of a text, under an expectation. -/
def token? (e : Expect) (cs : List Char) : Option (TokenKind × String) :=
  if e.names && cs.head?.any isNameStart then
    some (nameToken e.words (String.ofList (cs.takeWhile isNameChar)))
  else if e.names then anyToken? cs
  else match e.words.find? fun w => w.toList.isPrefixOf cs with
    | some w => some (.word w, w)
    | none => anyToken? cs

/-- The next token and the cursor behind it. -/
def Cursor.next (c : Cursor) (e : Expect) : Except Error (Token × Cursor) :=
  match skip false c.rest c.pos with
  | ([], _) => .ok (⟨.ending, "", c.last⟩, c)
  | (ch :: cs, pos) =>
    match token? e (ch :: cs) with
    | none => .error (.refused (.noMatch ch pos) (some pos))
    | some (kind, text) =>
      .ok (⟨kind, text, pos⟩,
        { rest := (ch :: cs).drop text.length, pos := pos.afterAll text.toList, last := pos })

end Ownership.Source
