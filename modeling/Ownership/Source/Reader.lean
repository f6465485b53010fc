import Ownership.Source.Lexer
import Ownership.Source.Tree

/-!
# Reading source trees

One token decides at every point how to go on, so the reader never turns back. Lists and nested
types are read with a bound on their length; each of their items takes at least one character, and
the bound that `Item.readAll` starts with is the length of the text.
-/

namespace Ownership.Source

/-- A reader of a part of the text. -/
abbrev Reader := StateT Cursor (Except Error)

namespace Reader

/-! ## 1. Tokens -/

/-- The next token, under an expectation. -/
def next (e : Expect) : Reader Token := fun c => c.next e

/-- The next token, left where it is. -/
def peek (e : Expect) : Reader Token := fun c => (c.next e).map fun (t, _) => (t, c)

/-- The token does not fit here. -/
def unexpected {α : Type} (t : Token) : Reader α :=
  fun _ => .error (.refused (.unexpected t) (some t.pos))

/-- Expect neither names nor words. -/
def marksOnly : Expect := {}

/-- Expect a name, and none of the words. -/
def namesOnly : Expect := { names := true }

def mark (m : String) : Reader Token := do
  let t ← next marksOnly
  if t.kind = .mark m then pure t else unexpected t

def name : Reader Token := do
  let t ← next namesOnly
  if t.kind = .name then pure t else unexpected t

/-- A name where one of the words could stand as well. -/
def nameOr (words : List String) : Reader Token := next { names := true, words := words }

/-- Items up to a closing mark, with commas between them and, if `trailing`, perhaps behind them. The
    token that begins an item has been looked at already. -/
def commaTail {α : Type} (item : Reader α) (closing : String) (trailing : Option Expect) :
    Nat → Reader (List α)
  | 0 => pure []
  | n + 1 => do
    let first ← item
    let t ← next marksOnly
    if t.kind = .mark closing then pure [first]
    else if t.kind = .mark "," then
      match trailing with
      | some e =>
        let t ← peek e
        if t.kind = .mark closing then do
          let _ ← next e
          pure [first]
        else do
          let more ← commaTail item closing trailing n
          pure (first :: more)
      | none => do
        let more ← commaTail item closing trailing n
        pure (first :: more)
    else unexpected t

/-- Items between an opening mark that was read and a closing one. `start` is what is expected at the
    first item. -/
def commaList {α : Type} (item : Reader α) (closing : String) (start : Expect) (trailing : Bool)
    (n : Nat) : Reader (List α) := do
  let t ← peek start
  if t.kind = .mark closing then do
    let _ ← next start
    pure []
  else commaTail item closing (if trailing then some start else none) n

/-! ## 2. Types -/

/-- A type whose first token may also be one of the words. -/
def typeAfter (t : Token) : Nat → Reader TypeTree
  | 0 => unexpected t
  | n + 1 => do
    match t.kind with
    | .name => pure (.named t)
    | .mark "&" => do
      let t ← nameOr ["mut"]
      if t.kind = .word "mut" then do
        let t ← next namesOnly
        let target ← typeAfter t n
        pure (.ref true target)
      else do
        let target ← typeAfter t n
        pure (.ref false target)
    | .mark "[" => do
      let t ← next namesOnly
      let element ← typeAfter t n
      let _ ← mark "]"
      pure (.array element)
    | _ => unexpected t

def type (n : Nat) : Reader TypeTree := do
  let t ← next namesOnly
  typeAfter t n

/-- `name: type` -/
def typedName (n : Nat) : Reader (Token × TypeTree) := do
  let x ← name
  let _ ← mark ":"
  let ty ← type n
  pure (x, ty)

/-! ## 3. Places and operands -/

/-- The steps behind a root. -/
def steps : Nat → Reader (List StepTree)
  | 0 => pure []
  | n + 1 => do
    let t ← peek marksOnly
    if t.kind = .mark "." then do
      let _ ← next marksOnly
      let t ← next namesOnly
      let step ← match t.kind with
        | .name => pure (StepTree.field t)
        | .mark "*" => pure StepTree.deref
        | _ => unexpected t
      let more ← steps n
      pure (step :: more)
    else if t.kind = .mark "[" then do
      let _ ← next marksOnly
      let t ← nameOr ["_"]
      let step ← match t.kind with
        | .number => pure (StepTree.position t)
        | .name => pure (StepTree.element t)
        | .word "_" => pure StepTree.anyElement
        | _ => unexpected t
      let _ ← mark "]"
      let more ← steps n
      pure (step :: more)
    else pure []

/-- The place whose root is the given token. -/
def placeAfter (t : Token) (n : Nat) : Reader PlaceTree := do
  if t.kind = .name then do
    let ss ← steps n
    pure ⟨t, ss⟩
  else unexpected t

def place (n : Nat) : Reader PlaceTree := do
  let t ← next namesOnly
  placeAfter t n

/-- The place behind `&`, and how it is borrowed. -/
def borrowed (n : Nat) : Reader OperandTree := do
  let t ← nameOr ["mut"]
  if t.kind = .word "mut" then do
    let p ← place n
    pure (.ref .unique p)
  else do
    let p ← placeAfter t n
    pure (.ref .shared p)

/-- The operand that the given token begins, if it begins one. -/
def operandAfter? (t : Token) (n : Nat) : Option (Reader OperandTree) :=
  match t.kind with
  | .word "copy" => some (OperandTree.copy <$> place n)
  | .word "move" => some (OperandTree.move <$> place n)
  | .mark "&" => some (borrowed n)
  | .number => some (pure (.literal (.number t)))
  | .word "true" => some (pure (.literal (.bool true)))
  | .word "false" => some (pure (.literal (.bool false)))
  | .string => some (pure (.literal (.string t)))
  | _ => none

/-- The words an operand may begin with. -/
def operandStart : Expect := { words := ["copy", "move", "true", "false"] }

def operand (n : Nat) : Reader OperandTree := do
  let t ← next operandStart
  (operandAfter? t n).getD (unexpected t)

/-! ## 4. Statements -/

/-- `name: operand` -/
def fieldInit (n : Nat) : Reader (Token × OperandTree) := do
  let x ← name
  let _ ← mark ":"
  let o ← operand n
  pure (x, o)

def value (n : Nat) : Reader ValueTree := do
  let t ← nameOr ["move", "copy", "clone", "true", "false", "alloc", "call"]
  match t.kind with
  | .word "clone" => ValueTree.clone <$> place n
  | .word "alloc" => ValueTree.alloc <$> name
  | .word "call" => do
    let callee ← name
    let _ ← mark "("
    let args ← commaList (operand n) ")" operandStart false n
    pure (.call callee args)
  | .name => do
    let _ ← mark "\x7b"
    let fields ← commaList (fieldInit n) "\x7d" namesOnly true n
    pure (.aggregate t fields)
  | _ => match operandAfter? t n with
    | some o => ValueTree.operand <$> o
    | none => unexpected t

/-- The words a statement or a terminator may begin with. -/
def statementWords : List String := ["drop", "eval", "goto", "branch", "return", "unreachable"]

/-- The terminator that the given token begins, up to the end of the block, if it begins one. -/
def terminatorAfter? (t : Token) (n : Nat) : Option (Reader TerminatorTree) :=
  match t.kind with
  | .word "goto" => some do
    let label ← name
    let _ ← mark ";"
    pure (.goto label)
  | .word "branch" => some do
    let cond ← operand n
    let _ ← mark ","
    let yes ← name
    let _ ← mark ","
    let no ← name
    let _ ← mark ";"
    pure (.branch cond yes no)
  | .word "return" => some do
    let _ ← mark ";"
    pure .ret
  | .word "unreachable" => some do
    let _ ← mark ";"
    pure .unreachable
  | _ => none

/-- The statement that the given token begins. -/
def statementAfter (t : Token) (n : Nat) : Reader StatementTree := do
  let s ← match t.kind with
    | .word "drop" => StatementTree.drop <$> place n
    | .word "eval" => StatementTree.eval <$> value n
    | _ => do
      let dest ← placeAfter t n
      let _ ← mark "="
      let v ← value n
      pure (.assign dest v)
  let _ ← mark ";"
  pure s

/-- Statements and the terminator behind them. -/
def body (m : Nat) : Nat → Reader (List StatementTree × TerminatorTree)
  | 0 => do
    let t ← nameOr statementWords
    unexpected t
  | n + 1 => do
    let t ← nameOr statementWords
    match terminatorAfter? t m with
    | some r => do
      let term ← r
      pure ([], term)
    | none => do
      let s ← statementAfter t m
      let (more, term) ← body m n
      pure (s :: more, term)

/-! ## 5. Functions -/

/-- The block whose label is the given token. -/
def blockAfter (label : Token) (n : Nat) : Reader BlockTree := do
  if label.kind = .name then do
    let _ ← mark ":"
    let _ ← mark "\x7b"
    let (statements, terminator) ← body n n
    let _ ← mark "\x7d"
    pure ⟨label, statements, terminator⟩
  else unexpected label

/-- The blocks behind the first one, up to the end of the function. -/
def moreBlocks (m : Nat) : Nat → Reader (List BlockTree)
  | 0 => pure []
  | n + 1 => do
    let t ← next namesOnly
    if t.kind = .mark "\x7d" then pure []
    else do
      let b ← blockAfter t m
      let more ← moreBlocks m n
      pure (b :: more)

/-- The kind of root that a word declares. -/
def declKind? : TokenKind → Option RootKind
  | .word "let" => some .localVar
  | .word "temp" => some .temp
  | .word "global" => some .globalVar
  | _ => none

/-- The declarations and blocks of a function. -/
def declsAndBlocks (m : Nat) : Nat → Reader (List DeclTree × List BlockTree)
  | 0 => pure ([], [])
  | n + 1 => do
    let t ← nameOr ["let", "temp", "global"]
    match declKind? t.kind with
    | some kind => do
      let (x, ty) ← typedName m
      let _ ← mark ";"
      let (decls, blocks) ← declsAndBlocks m n
      pure (⟨kind, x, ty⟩ :: decls, blocks)
    | none => do
      let b ← blockAfter t m
      let more ← moreBlocks m m
      pure ([], b :: more)

/-- The return type behind an arrow. -/
def result (n : Nat) : Reader ResultTree := do
  let t ← next namesOnly
  if t.kind = .mark "(" then do
    let (x, ty) ← typedName n
    let _ ← mark ")"
    pure (.named x ty)
  else ResultTree.anonymous <$> typeAfter t n

def function (pos : Position) (n : Nat) : Reader FunctionTree := do
  let f ← name
  let _ ← mark "("
  let params ← commaList (typedName n) ")" namesOnly false n
  let t ← next marksOnly
  let res ← if t.kind = .mark "->" then do
      let r ← result n
      let _ ← mark "\x7b"
      pure (some r)
    else if t.kind = .mark "\x7b" then pure none
    else unexpected t
  let (locals, blocks) ← declsAndBlocks n n
  pure ⟨pos, f, params.map fun (x, ty) => ⟨.param, x, ty⟩, res, locals, blocks⟩

/-! ## 6. Items -/

def struct (copy : Bool) (n : Nat) : Reader Item := do
  let x ← name
  let _ ← mark "\x7b"
  let fields ← commaList (typedName n) "\x7d" namesOnly true n
  pure (.struct copy x fields)

/-- The item that the given token begins. -/
def itemAfter (t : Token) (n : Nat) : Reader Item :=
  match t.kind with
  | .word "type" => do
    let x ← name
    let _ ← mark "="
    let t ← next { words := ["owned", "scalar"] }
    let item ← match t.kind with
      | .word "owned" => pure (Item.ownedType x)
      | .word "scalar" => pure (Item.scalarType x)
      | _ => unexpected t
    let _ ← mark ";"
    pure item
  | .word "struct" => struct false n
  | .word "copy" => do
    let t ← next { words := ["struct"] }
    if t.kind = .word "struct" then struct true n else unexpected t
  | .word "fn" => Item.function <$> function t.pos n
  | _ => unexpected t

/-- The items up to the end of the text. -/
def items (m : Nat) : Nat → Reader (List Item)
  | 0 => pure []
  | n + 1 => do
    let t ← next { words := ["type", "struct", "copy", "fn"] }
    if t.kind = .ending then pure []
    else do
      let item ← itemAfter t m
      let more ← items m n
      pure (item :: more)

end Reader

/-- The items of a text. -/
def Item.readAll (text : String) : Except Error (List Item) :=
  let n := text.length + 1
  (Reader.items n n { rest := text.toList }).map Prod.fst

end Ownership.Source
