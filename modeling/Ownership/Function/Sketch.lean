import Ownership.Function.Thing
import Ownership.Function.Validation

/-!
# Sketches

A sketch is a function whose head is in order and whose body is made of any things. Validation goes
through it as through a draft, but what it meets may fail under its hands: then there is neither a
complaint nor a function, but the failure itself. Nor can a complaint be made if a number in its text
is too long to be written out.

Validation looks at the root of a place and at the variables of its indices, not at its steps. So it
lets through places whose steps are none. `Sketch.validate` hands out a function only if there are
no such places.
-/

namespace Ownership

open Text (isShort)

/-! ## 1. Writing out -/

/-- The full form of a step can be written out. -/
def Projection.prints : Projection → Bool
  | .index i => i.value.all isShort
  | _ => true

/-- The full form of a path can be written out. -/
def Path.prints (p : Path) : Bool := p.all Projection.prints

/-- The text of a step can be written out: of the number of an index, only a known position shows. -/
def Projection.renders : Projection → Bool
  | .index i => i.position?.all isShort
  | _ => true

/-- The text of a place can be written out. -/
def Place.renders (p : Place) : Bool := p.path.all Projection.renders

namespace Node

mutual

/-- The full form of a node can be written out. -/
def prints : Node → Bool
  | .literalNode v | .literalOperand v | .constValue v => v.prints
  | .placeNode p => Path.prints p.path
  | .kindNode _ | .allocValue _ | .retTerminator | .unreachableTerminator => true
  | .copyOperand n | .moveOperand n | .useValue n | .cloneValue n | .dropStatement n
  | .evalStatement n | .gotoTerminator n => prints n
  | .refOperand n m | .assignStatement n m | .moveStatement n m => prints n && prints m
  | .borrowStatement n m k | .branchTerminator n m k => prints n && prints m && prints k
  | .callValue _ args => printsAll args
  | .aggregateValue _ fields => printsFields fields

/-- The same for several nodes. -/
def printsAll : List Node → Bool
  | [] => true
  | n :: ns => prints n && printsAll ns

/-- The same for the nodes of fields. -/
def printsFields : List (String × Node) → Bool
  | [] => true
  | (_, n) :: fs => prints n && printsFields fs

end

end Node

/-- The message of a fault can be written out. -/
def Fault.prints : Fault → Bool
  | .unknownType _ (some t) => isShort t
  | .paramNotWhole p | .resultNotWhole p | .kindMismatch p _ | .undeclaredIndex _ p => p.renders
  | .unknownStatement n | .unknownValue n | .unknownOperand n | .notAPlace n | .notALoanKind n
  | .unknownTerminator n | .noSuchBlock n => n.prints
  | _ => true

/-! ## 2. Steps -/

namespace Thing

/-- The number that a thing is, or nothing. -/
def number? : Thing → Option (Option Int)
  | .datum .absent => some none
  | .datum (.int n) => some (some n)
  | _ => none

/-- The name that a thing is, or nothing. -/
def name? : Thing → Option (Option String)
  | .datum .absent => some none
  | x => x.text?.map some

/-- The step that a thing is. -/
def step? : Thing → Option Projection
  | .node .fieldStep [name] => name.text?.map .field
  | .node .indexStep [.indexKind kind, value, var] => do
    let value ← value.number?
    let var ← var.name?
    return .index ⟨kind, value, var⟩
  | .node .derefStep [] => some .deref
  | _ => none

/-- The path that a thing is. -/
def path? : Thing → Option Path
  | .tuple steps => steps.mapM step?
  | _ => none

/-- The thing is the root. -/
def isRoot (r : Root) : Thing → Bool
  | .node .root [.rootKind k, .datum (.text cs)] => k == r.kind && cs == Text.codes r.name
  | _ => false

/-- The variable of an index, whatever it is. -/
def indexVar? : Thing → Option Thing
  | .node .indexStep [_, _, var] =>
    match var with
    | .datum .absent => none
    | x => some x
  | _ => none

/-- The constant that a thing is. No pass looks at constants, so any other thing will do as none. -/
def literal : Thing → Literal
  | .datum v => v
  | _ => .absent

/-- The text that a thing is. No pass looks at the names of types and of called functions. -/
def label (x : Thing) : String := x.text?.getD ""

end Thing

/-! ## 3. Validation of things -/

/-- How a thing is refused. -/
inductive Mishap where
  | complaint (text : String)
  | raised (e : Raised)

/-- Do something that may fail. -/
def attempt {α : Type} (x : Except Raised α) : Except Mishap α := x.mapError .raised

/-- Complain, unless the complaint cannot be put into words. -/
def complain {α : Type} (text : Except Raised String) : Except Mishap α := do
  let text ← attempt text
  .error (.complaint text)

/-- The declaration that a thing names. -/
def Locals.find (locals : Locals) (x : Thing) : Except Raised (Option Decl) := do
  x.asKey
  return x.text?.bind (Roster.get? locals)

namespace Thing

/-- The complaint that the root of a place is declared otherwise. -/
def mismatch (base steps name : Thing) (declared : RootKind) : Except Raised String := do
  let place ← shown (.node .place [base, steps])
  let kind ← base.part "kind"
  let kindName ← kind.part "name"
  let kindText ← kindName.shown
  let nameText ← name.shown
  return s!"place '{place}' uses root kind {kindText} but '{nameText}' is declared {declared.label}"

/-- Refuse a variable of an index that is not declared. -/
def checkVar (locals : Locals) (base steps var : Thing) : Except Mishap Unit := do
  match ← attempt (locals.find var) with
  | some _ => return ()
  | none => complain do
    let varText ← var.shown
    let place ← shown (.node .place [base, steps])
    return s!"index variable '{varText}' in '{place}' is not declared"

/-- A place whose root and index variables are declared, as far as its steps are steps. -/
def toPlace (locals : Locals) : Thing → Except Mishap (Option Place)
  | .node .place [base, steps] => do
    let name ← attempt (base.part "name")
    match ← attempt (locals.find name) with
    | none => complain do
      let text ← name.shown
      return s!"use of undeclared root '{text}'"
    | some d =>
      if base.isRoot d.root then
        let items ← attempt steps.items
        (items.filterMap indexVar?).forM (checkVar locals base steps)
        return steps.path?.map fun path => ⟨d.root, path⟩
      else complain (mismatch base steps name d.root.kind)
  | x => complain do
    let text ← x.fullForm
    return "expected a place, got " ++ text

/-- The kind of a loan. -/
def toLoanKind : Thing → Except Mishap LoanKind
  | .loanKind k => .ok k
  | x => complain do
    let text ← x.fullForm
    return "borrow kind must be a LoanKind, got " ++ text

/-- An operand, as far as its place is one. -/
def toOperand (locals : Locals) : Thing → Except Mishap (Option Operand)
  | .node .literalOperand [v] => .ok (some (.literal v.literal))
  | .node .copyOperand [p] => do
    let place ← p.toPlace locals
    return place.map .copy
  | .node .moveOperand [p] => do
    let place ← p.toPlace locals
    return place.map .move
  | .node .refOperand [p, k] => do
    let kind ← k.toLoanKind
    let place ← p.toPlace locals
    return place.map (.ref · kind)
  | x => complain do
    let text ← x.fullForm
    return "unknown operand " ++ text

/-- The field of an aggregate, as far as its name is one. -/
def toField (locals : Locals) (field : Thing × Thing) : Except Mishap (Option (String × Operand)) := do
  let operand ← field.2.toOperand locals
  return do
    let name ← field.1.text?
    let operand ← operand
    return (name, operand)

/-- A value, as far as its places and the names of its fields are such. -/
def toValue (locals : Locals) : Thing → Except Mishap (Option Value)
  | .node .constValue [v] => .ok (some (.const v.literal))
  | .node .allocValue [t] => .ok (some (.alloc t.label))
  | .node .useValue [o] => do
    let operand ← o.toOperand locals
    return operand.map .use
  | .node .cloneValue [p] => do
    let place ← p.toPlace locals
    return place.map .clone
  | .node .callValue [f, args] => do
    let items ← attempt args.items
    let operands ← items.mapM (toOperand locals)
    return (operands.mapM id).map (.call f.label)
  | .node .aggregateValue [t, fields] => do
    let items ← attempt fields.items
    let pairs ← attempt (items.mapM pair)
    attempt (pairs.forM fun f => f.1.asKey)
    if allDistinct (pairs.map Prod.fst) then
      let operands ← pairs.mapM (toField locals)
      return (operands.mapM id).map (.aggregate t.label)
    else complain do
      let text ← t.shown
      return s!"aggregate '{text}' initializes a field twice"
  | x => complain do
    let text ← x.fullForm
    return "unknown value expression " ++ text

/-- A statement, as far as its places are such. -/
def toStatement (locals : Locals) : Thing → Except Mishap (Option Statement)
  | .node .assignStatement [d, v] => do
    let dest ← d.toPlace locals
    let value ← v.toValue locals
    return do return .assign (← dest) (← value)
  | .node .borrowStatement [d, p, k] => do
    let kind ← k.toLoanKind
    let dest ← d.toPlace locals
    let place ← p.toPlace locals
    return do return .borrow (← dest) (← place) kind
  | .node .moveStatement [d, p] => do
    let dest ← d.toPlace locals
    let src ← p.toPlace locals
    return do return .move (← dest) (← src)
  | .node .dropStatement [p] => do
    let place ← p.toPlace locals
    return place.map .drop
  | .node .evalStatement [v] => do
    let value ← v.toValue locals
    return value.map .eval
  | x => complain do
    let text ← x.fullForm
    return "unknown statement " ++ text

/-- A jump target among `count` blocks. -/
def toTarget (count : Nat) (x : Thing) : Except Mishap Nat :=
  let refuse : Except Mishap Nat := complain do
    let text ← x.fullForm
    return "terminator references nonexistent block " ++ text
  match x with
  | .datum (.int (.ofNat t)) => if t < count then .ok t else refuse
  | _ => refuse

/-- The terminator of block `b`; the targets are looked at before the condition. -/
def toTerminator (locals : Locals) (count b : Nat) : Thing → Except Mishap (Option Terminator)
  | .datum .absent => complain (.ok s!"block {b} has no terminator")
  | .node .gotoTerminator [t] => do
    let target ← t.toTarget count
    return some (.goto target)
  | .node .branchTerminator [c, y, n] => do
    let yes ← y.toTarget count
    let no ← n.toTarget count
    let cond ← c.toOperand locals
    return cond.map (.branch · yes no)
  | .node .retTerminator [] => .ok (some .ret)
  | .node .unreachableTerminator [] => .ok (some .unreachable)
  | x => complain do
    let text ← x.fullForm
    return "unknown terminator " ++ text

end Thing

/-! ## 4. Sketches -/

/-- A block of any things. -/
structure SketchBlock where
  statements : List Thing
  terminator : Thing

/-- A function with any things in its body. -/
structure Sketch where
  name : String
  params : List Place
  result : Place
  locals : Locals
  blocks : List SketchBlock

/-- How a sketch is refused: a complaint, where in the body if something in it is to blame, or what
    failed before there could be one. -/
inductive Refusal where
  | malformed (function : String) (point : Option Point) (reason : String)
  | raised (e : Raised)

/-- Say where in the body something went wrong. -/
def Mishap.located (function : String) (point : Point) : Mishap → Refusal
  | .complaint text => .malformed function (some point) text
  | .raised e => .raised e

/-- The refusal of a draft, as far as its message can be written out. -/
def Malformed.refusal (m : Malformed) : Refusal :=
  if m.fault.prints then .malformed m.function m.point m.fault.message else .raised .tooLong

namespace Sketch

/-- The head of the sketch, with empty blocks. -/
def head (s : Sketch) : Draft :=
  { name := s.name, params := s.params, result := s.result, locals := s.locals,
    blocks := s.blocks.map fun _ => ⟨[], .missing⟩ }

/-- Block `b` of a sketch. -/
def validateBlock (s : Sketch) (b : Nat) (block : SketchBlock) : Except Refusal (Option Block) := do
  let statements ← block.statements.zipIdx.mapM fun (x, i) =>
    (x.toStatement s.locals).mapError (Mishap.located s.name ⟨b, i⟩)
  let terminator ← (block.terminator.toTerminator s.locals s.blocks.length b).mapError
    (Mishap.located s.name ⟨b, block.statements.length⟩)
  return do return ⟨← statements.mapM id, ← terminator⟩

/-- The function that a sketch stands for, if all its places are proper, or the first thing that goes
    wrong. -/
def validate (s : Sketch) (types : TypeTable) : Except Refusal (Option Function) := do
  (Ownership.located s.name none (s.head.checkHead types)).mapError Malformed.refusal
  let blocks ← s.blocks.zipIdx.mapM fun (block, b) => s.validateBlock b block
  return (blocks.mapM id).map fun blocks =>
    { name := s.name, params := s.params, result := s.result, locals := s.locals, blocks := blocks }

end Sketch

end Ownership
