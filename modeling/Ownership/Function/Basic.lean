import Ownership.Place.Basic
import Ownership.Roster
import Ownership.Text.CodePoint
import Ownership.Types.Table

/-!
# Functions

A function body is a list of blocks. A block holds statements and ends in one terminator, which is
the only way out of it; block 0 is the entry. Every root the body mentions is declared with its
kind and type.
-/

namespace Ownership

/-! ## 1. Operands and values -/

/-- How a place is borrowed. -/
inductive LoanKind where
  | shared
  | unique
  deriving DecidableEq, Repr

/-- The word for a kind of loan. -/
def LoanKind.render : LoanKind → String
  | .shared => "shared"
  | .unique => "unique"

/-- A constant. -/
inductive Literal where
  | absent
  | bool (b : Bool)
  | int (n : Int)
  | text (cs : List Text.CodePoint)
  deriving DecidableEq, Repr

/-- What a value is computed from. -/
inductive Operand where
  /-- Read a place and leave it as it is. -/
  | copy (place : Place)
  /-- Take the value out of a place. -/
  | move (place : Place)
  /-- Borrow a place. -/
  | ref (place : Place) (kind : LoanKind)
  | literal (v : Literal)
  deriving DecidableEq, Repr

/-- The place that an operand is about. -/
def Operand.place? : Operand → Option Place
  | .copy p | .move p | .ref p _ => some p
  | .literal _ => none

/-- The right-hand side of an assignment. -/
inductive Value where
  | const (v : Literal)
  /-- A fresh owned value of the named type. -/
  | alloc (type : String)
  | use (operand : Operand)
  /-- A deep copy of a place. -/
  | clone (place : Place)
  /-- A call, of which only the operands are looked at. -/
  | call (callee : String) (args : List Operand)
  | aggregate (type : String) (fields : List (String × Operand))
  deriving DecidableEq, Repr

/-- The operands of a value, in the order in which they are evaluated. -/
def Value.operands : Value → List Operand
  | .use o => [o]
  | .call _ args => args
  | .aggregate _ fields => fields.map Prod.snd
  | .const _ | .alloc _ | .clone _ => []

/-- The place a value clones. -/
def Value.cloned? : Value → Option Place
  | .clone p => some p
  | _ => none

/-! ## 2. Statements and terminators -/

/-- A step of a block. -/
inductive Statement where
  | assign (dest : Place) (value : Value)
  | borrow (dest of : Place) (kind : LoanKind)
  | move (dest src : Place)
  /-- The storage of the place ends here. -/
  | drop (place : Place)
  | eval (value : Value)
  deriving DecidableEq, Repr

/-- The place a statement writes. -/
def Statement.dest? : Statement → Option Place
  | .assign d _ | .borrow d _ _ | .move d _ => some d
  | .drop _ | .eval _ => none

/-- The value a statement evaluates. -/
def Statement.value? : Statement → Option Value
  | .assign _ v | .eval v => some v
  | .borrow .. | .move .. | .drop _ => none

/-- The end of a block. -/
inductive Terminator where
  | goto (target : Nat)
  | branch (cond : Operand) (yes no : Nat)
  | ret
  | unreachable
  deriving DecidableEq, Repr

/-- The blocks that a terminator leads to. -/
def Terminator.targets : Terminator → List Nat
  | .goto t => [t]
  | .branch _ y n => [y, n]
  | .ret | .unreachable => []

/-! ## 3. Functions -/

/-- The type one step further in. -/
def TypeTable.stepType (types : TypeTable) (type : Option TypeId) : Projection → Option TypeId
  | .field n => types.fieldType type n
  | .index _ => types.elementType type
  | .deref => types.targetType type

/-- Statements in order, and how the block ends. -/
structure Block where
  statements : List Statement
  terminator : Terminator
  deriving DecidableEq, Repr

/-- A declared root and the number of its type. -/
structure Decl where
  root : Root
  type : Option TypeId
  deriving DecidableEq, Repr

/-- The declared roots, by name. -/
abbrev Locals := Roster Decl

namespace Locals

/-- The type a name is declared with. -/
def typeOf? (ls : Locals) (name : String) : Option TypeId := (Roster.get? ls name).bind Decl.type

/-- The root a name is declared as; a name without declaration is a local variable. -/
def rootOf (ls : Locals) (name : String) : Root :=
  ((Roster.get? ls name).map Decl.root).getD ⟨.localVar, name⟩

/-- The type of a place, where it is known. Only the name of the root is looked up. -/
def placeType (ls : Locals) (types : TypeTable) (p : Place) : Option TypeId :=
  p.path.foldl (types.stepType) (ls.typeOf? p.name)

end Locals

/-- A function as it is checked. -/
structure Function where
  name : String
  params : List Place
  result : Place
  locals : Locals
  blocks : List Block
  deriving DecidableEq, Repr

namespace Function

/-- The whole root a name is declared as. -/
def rootOf (f : Function) (name : String) : Place := ⟨f.locals.rootOf name, []⟩

/-- The type of a place, where it is known. -/
def placeType (f : Function) (types : TypeTable) (p : Place) : Option TypeId :=
  f.locals.placeType types p

/-- Reading the place takes its value away: it is reached without a dereference and its type is not
    copyable. -/
def isMovable (f : Function) (types : TypeTable) (p : Place) : Bool :=
  !p.hasDeref && !types.isCopy (f.placeType types p)

end Function

/-- The name of the return place of a function that gives it none. -/
def defaultResult : String := "_ret"

/-- A function without blocks, from the names and types of its roots: parameters, locals,
    temporaries and the return place, which is an `Int` called `_ret` unless given. A later
    declaration of a name replaces an earlier one. -/
def Function.declare (types : TypeTable) (name : String) (params locals temps : Roster (Option TypeId))
    (result : Option (String × Option TypeId)) : Except TypeError (Function × TypeTable) := do
  let (res, types) ← match result with
    | some r => pure (r, types)
    | none => do
      let (types, i) ← types.ensureInt
      pure ((defaultResult, some i), types)
  let entries (kind : RootKind) (r : Roster (Option TypeId)) : List (String × Decl) :=
    r.map fun (n, ty) => (n, ⟨⟨kind, n⟩, ty⟩)
  let decls := Roster.ofPairs (entries .param params ++ entries .localVar locals
    ++ entries .temp temps ++ [(res.1, ⟨⟨.result, res.1⟩, res.2⟩)])
  pure ({ name := name, params := params.map fun (n, _) => ⟨⟨.param, n⟩, []⟩,
          result := ⟨⟨.result, res.1⟩, []⟩, locals := decls, blocks := [] }, types)

end Ownership
