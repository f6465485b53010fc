import Ownership.Function.Basic
import Ownership.Place.Record
import Ownership.Text.Numeral

/-!
# Drafts

A draft is a function body as a front end hands it over. Its declarations are in order, but its
statements are trees of nodes in which any node may stand anywhere: a literal where a place should
be, a statement where an operand should be, a terminator that is missing. `Function.draft` reads a
proper function as a draft.
-/

namespace Ownership

open Text

/-- A node of a draft. -/
inductive Node where
  | literalNode (v : Literal)
  | kindNode (k : LoanKind)
  | placeNode (p : Place)
  | copyOperand (place : Node)
  | moveOperand (place : Node)
  | refOperand (place kind : Node)
  | literalOperand (v : Literal)
  | constValue (v : Literal)
  | allocValue (type : String)
  | useValue (operand : Node)
  | cloneValue (place : Node)
  | callValue (callee : String) (args : List Node)
  | aggregateValue (type : String) (fields : List (String × Node))
  | assignStatement (dest value : Node)
  | borrowStatement (dest of kind : Node)
  | moveStatement (dest src : Node)
  | dropStatement (place : Node)
  | evalStatement (value : Node)
  | gotoTerminator (target : Node)
  | branchTerminator (cond yes no : Node)
  | retTerminator
  | unreachableTerminator
  deriving Inhabited

/-- Nothing stands where a node could be. -/
def Node.missing : Node := .literalNode .absent

/-- A block of any nodes. -/
structure DraftBlock where
  statements : List Node
  terminator : Node

/-- A function with a body of any nodes. -/
structure Draft where
  name : String
  params : List Place
  result : Place
  locals : Locals
  blocks : List DraftBlock

/-! ## 1. Nodes as records -/

/-- The full form of a constant. It is told for every number; `Literal.prints` says which can be written
    out. -/
def Literal.record : Literal → String
  | .absent => "None"
  | .bool true => "True"
  | .bool false => "False"
  | .int n => toString n
  | .text cs => quoteCodes cs

/-- The literal can be written out. -/
def Literal.prints : Literal → Bool
  | .int n => isShort n
  | _ => true

/-- The name of a kind of loan. -/
def LoanKind.label : LoanKind → String
  | .shared => "SHARED"
  | .unique => "UNIQUE"

/-- The full form of a kind of loan. -/
def LoanKind.record : LoanKind → String
  | .shared => "<LoanKind.SHARED: 1>"
  | .unique => "<LoanKind.UNIQUE: 2>"

namespace Node

mutual
/-- The full form of a node, as a message quotes it. -/
def record : Node → String
  | .literalNode v => v.record
  | .kindNode k => k.record
  | .placeNode p => p.record
  | .copyOperand p => Text.record "Copy" [("place", record p)]
  | .moveOperand p => Text.record "MoveOp" [("place", record p)]
  | .refOperand p k => Text.record "Ref" [("place", record p), ("kind", record k)]
  | .literalOperand v => Text.record "Literal" [("value", v.record)]
  | .constValue v => Text.record "Const" [("value", v.record)]
  | .allocValue t => Text.record "Alloc" [("type_name", quote t)]
  | .useValue o => Text.record "Use" [("operand", record o)]
  | .cloneValue p => Text.record "Clone" [("place", record p)]
  | .callValue f args => Text.record "Call" [("func", quote f), ("args", tuple (recordAll args))]
  | .aggregateValue t fields =>
    Text.record "Aggregate" [("type_name", quote t), ("fields", tuple (recordFields fields))]
  | .assignStatement d v => Text.record "Assign" [("dest", record d), ("value", record v)]
  | .borrowStatement d p k =>
    Text.record "Borrow" [("dest", record d), ("of", record p), ("kind", record k)]
  | .moveStatement d p => Text.record "Move" [("dest", record d), ("src", record p)]
  | .dropStatement p => Text.record "Drop" [("place", record p)]
  | .evalStatement v => Text.record "Eval" [("value", record v)]
  | .gotoTerminator t => Text.record "Goto" [("target", record t)]
  | .branchTerminator c y n =>
    Text.record "Branch" [("cond", record c), ("then_block", record y), ("else_block", record n)]
  | .retTerminator => Text.record "Return" []
  | .unreachableTerminator => Text.record "Unreachable" []

/-- The full forms of several nodes. -/
def recordAll : List Node → List String
  | [] => []
  | n :: ns => record n :: recordAll ns

/-- The full forms of fields, each a pair of name and node. -/
def recordFields : List (String × Node) → List String
  | [] => []
  | (k, n) :: fs => tuple [quote k, record n] :: recordFields fs
end

end Node

/-! ## 2. Functions as drafts -/

/-- An operand as a node. -/
def Operand.draft : Operand → Node
  | .copy p => .copyOperand (.placeNode p)
  | .move p => .moveOperand (.placeNode p)
  | .ref p k => .refOperand (.placeNode p) (.kindNode k)
  | .literal v => .literalOperand v

/-- A value as a node. -/
def Value.draft : Value → Node
  | .const v => .constValue v
  | .alloc t => .allocValue t
  | .use o => .useValue o.draft
  | .clone p => .cloneValue (.placeNode p)
  | .call f args => .callValue f (args.map Operand.draft)
  | .aggregate t fields => .aggregateValue t (fields.map fun (n, o) => (n, o.draft))

/-- A statement as a node. -/
def Statement.draft : Statement → Node
  | .assign d v => .assignStatement (.placeNode d) v.draft
  | .borrow d p k => .borrowStatement (.placeNode d) (.placeNode p) (.kindNode k)
  | .move d p => .moveStatement (.placeNode d) (.placeNode p)
  | .drop p => .dropStatement (.placeNode p)
  | .eval v => .evalStatement v.draft

/-- A jump target as a node. -/
def targetNode (t : Nat) : Node := .literalNode (.int t)

/-- A terminator as a node. -/
def Terminator.draft : Terminator → Node
  | .goto t => .gotoTerminator (targetNode t)
  | .branch c y n => .branchTerminator c.draft (targetNode y) (targetNode n)
  | .ret => .retTerminator
  | .unreachable => .unreachableTerminator

/-- A block as one of nodes. -/
def Block.draft (b : Block) : DraftBlock :=
  ⟨b.statements.map Statement.draft, b.terminator.draft⟩

/-- A function as a draft of itself. -/
def Function.draft (f : Function) : Draft :=
  { name := f.name, params := f.params, result := f.result, locals := f.locals,
    blocks := f.blocks.map Block.draft }

end Ownership
