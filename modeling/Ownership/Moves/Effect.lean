import Ownership.Flow.Graph
import Ownership.Moves.State

/-!
# What statements do to ownership

A statement is read as a list of effects, in the order in which they take place: places that are
read, values that are taken out, storage that is released, places that are filled. Reading never
changes a state, so the states along a list of effects do not depend on what the reads find.

Reading a place first reads the variables of its indices. Behind a dereference nothing is owned:
only the reference itself has to be there.
-/

namespace Ownership

/-- Why a place is read. -/
inductive Action where
  | use
  | borrow
  | move
  deriving DecidableEq, Repr

def Action.render : Action → String
  | .use => "use"
  | .borrow => "borrow"
  | .move => "move"

/-- One step of a statement, as far as ownership is concerned. -/
inductive Effect where
  /-- The place has to be there. -/
  | read (place : Place) (action : Action)
  /-- The value is moved out of the place. -/
  | take (place : Place)
  /-- The storage of the place ends. -/
  | release (place : Place)
  /-- The place gets a fresh value. -/
  | fill (place : Place)
  deriving DecidableEq, Repr

/-- The states after an effect. -/
def Effect.apply (m : MoveMap) : Effect → MoveMap
  | .read _ _ => m
  | .take p | .release p => m.insert p.name ((m.stateOf p.name).afterMove p.path)
  | .fill p => m.insert p.name ((m.stateOf p.name).afterAssign p.path)

/-- The states after a list of effects. -/
def Effect.applyAll (m : MoveMap) (es : List Effect) : MoveMap := es.foldl Effect.apply m

namespace Function

variable (f : Function) (types : TypeTable)

/-- The variables of the indices are used. -/
def indexReads (p : Place) : List Effect :=
  p.indexVars.map fun v => .read (f.rootOf v) .use

def readEffects (p : Place) (action : Action) : List Effect :=
  f.indexReads p ++ [.read p action]

/-- A copyable value, or one behind a reference, is only read. -/
def moveEffects (p : Place) : List Effect :=
  if f.isMovable types p then f.readEffects p .move ++ [.take p] else f.readEffects p .use

/-- Writing through a reference uses the reference. -/
def writeEffects (p : Place) : List Effect :=
  f.indexReads p ++ if p.hasDeref then f.readEffects p.carrier .use else [.fill p]

def operandEffects : Operand → List Effect
  | .copy p => f.readEffects p .use
  | .move p => f.moveEffects types p
  | .ref p _ => f.readEffects p .borrow
  | .literal _ => []

def valueEffects : Value → List Effect
  | .clone p => f.readEffects p .use
  | v => v.operands.flatMap (f.operandEffects types)

def statementEffects : Statement → List Effect
  | .assign d v => f.valueEffects types v ++ f.writeEffects d
  | .borrow d p _ => f.readEffects p .borrow ++ f.writeEffects d
  | .move d p => f.moveEffects types p ++ f.writeEffects d
  | .drop p => if p.hasDeref then [] else [.release p]
  | .eval v => f.valueEffects types v

/-- Some statement writes the return place. A function without one returns nothing. -/
def writesResult : Bool :=
  f.blocks.any fun b => b.statements.any fun s => s.dest?.any fun d => d.root == f.result.root

def terminatorEffects : Terminator → List Effect
  | .branch c _ _ => f.operandEffects types c
  | .ret => if f.writesResult then f.readEffects f.result .use else []
  | .goto _ | .unreachable => []

/-- The effects of a block, point by point. -/
def blockEffects (b : Nat) : List (Point × List Effect) :=
  (f.statementsOf b).map (fun (s, pt) => (pt, f.statementEffects types s))
    ++ [(f.exitOf b, f.terminatorEffects types (f.block b).terminator)]

end Function

end Ownership
