import Ownership.Function.Basic
import Ownership.Source.Token

/-!
# Source trees

A text as it is read, before anything in it is looked up. Names keep the tokens they came from, so
that what is wrong with them can be reported where they stand.
-/

namespace Ownership.Source

/-- A type as it is written. -/
inductive TypeTree where
  | named (name : Token)
  | ref (unique : Bool) (target : TypeTree)
  | array (element : TypeTree)

/-- A step behind a place: `.f`, `.*`, `[0]`, `[i]`, `[_]`. -/
inductive StepTree where
  | field (name : Token)
  | deref
  | position (number : Token)
  | element (name : Token)
  | anyElement

/-- A place as it is written. -/
structure PlaceTree where
  root : Token
  steps : List StepTree

/-- A constant, a number and a string still as their tokens. -/
inductive LiteralTree where
  | number (token : Token)
  | bool (b : Bool)
  | string (token : Token)

/-- An operand as it is written. -/
inductive OperandTree where
  | copy (place : PlaceTree)
  | move (place : PlaceTree)
  | ref (kind : LoanKind) (place : PlaceTree)
  | literal (v : LiteralTree)

/-- A right-hand side; a borrow is an operand like any other. -/
inductive ValueTree where
  | operand (o : OperandTree)
  | clone (place : PlaceTree)
  | alloc (type : Token)
  | call (callee : Token) (args : List OperandTree)
  | aggregate (type : Token) (fields : List (Token × OperandTree))

/-- A statement as it is written; what an assignment is depends on its right-hand side. -/
inductive StatementTree where
  | assign (dest : PlaceTree) (value : ValueTree)
  | drop (place : PlaceTree)
  | eval (value : ValueTree)

/-- A terminator, with the labels it jumps to. -/
inductive TerminatorTree where
  | goto (label : Token)
  | branch (cond : OperandTree) (yes no : Token)
  | ret
  | unreachable

/-- A block under its label. -/
structure BlockTree where
  label : Token
  statements : List StatementTree
  terminator : TerminatorTree

/-- A declared name with its type. -/
structure DeclTree where
  kind : RootKind
  name : Token
  type : TypeTree

/-- A return type, with a name for the return place or without. -/
inductive ResultTree where
  | anonymous (type : TypeTree)
  | named (name : Token) (type : TypeTree)

/-- A function as it is written. -/
structure FunctionTree where
  /-- Where the function begins. -/
  pos : Position
  name : Token
  params : List DeclTree
  result : Option ResultTree
  locals : List DeclTree
  blocks : List BlockTree

/-- What a text is a list of: declared types and functions. -/
inductive Item where
  | scalarType (name : Token)
  | ownedType (name : Token)
  | struct (copy : Bool) (name : Token) (fields : List (Token × TypeTree))
  | function (f : FunctionTree)

end Ownership.Source
