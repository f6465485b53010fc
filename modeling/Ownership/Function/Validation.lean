import Ownership.Function.Draft
import Ownership.Function.Point
import Ownership.Place.Printer

/-!
# Validation

`Draft.validate` turns a draft into a function or names the first thing that is wrong with it. The
declarations are looked at first, then the parameters, then the return place, then block by block
every statement and the terminator; inside a node, from left to right. What passes is a function in
which every root and index variable is declared, every place has its root's declared kind, and
every jump goes to a block.
-/

namespace Ownership

/-! ## 1. What can be wrong -/

/-- What is wrong with a draft. -/
inductive Fault where
  | noBlocks
  | keyMismatch (key root : String)
  | unknownType (name : String) (type : Option TypeId)
  | paramNotWhole (place : Place)
  | duplicateParam (name : String)
  | paramNotDeclared (name : String)
  | paramNotListed (name : String)
  | resultNotWhole (place : Place)
  | resultNotDeclared (name : String)
  | unknownStatement (n : Node)
  | unknownValue (n : Node)
  | unknownOperand (n : Node)
  | notAPlace (n : Node)
  | notALoanKind (n : Node)
  | fieldTwice (type : String)
  | undeclaredRoot (name : String)
  | kindMismatch (place : Place) (declared : RootKind)
  | undeclaredIndex (var : String) (place : Place)
  | noTerminator (block : Nat)
  | unknownTerminator (n : Node)
  | noSuchBlock (target : Node)

/-- What is said about a fault. -/
def Fault.message : Fault → String
  | .noBlocks => "function has no blocks"
  | .keyMismatch k r => s!"declaration key '{k}' does not match root '{r}'"
  | .unknownType n none => s!"'{n}' declared with unknown type id None"
  | .unknownType n (some t) => s!"'{n}' declared with unknown type id {t}"
  | .paramNotWhole p => s!"parameter '{p.render}' must be a root place"
  | .duplicateParam n => s!"duplicate parameter '{n}'"
  | .paramNotDeclared n => s!"parameter '{n}' is not declared as a parameter"
  | .paramNotListed n => s!"'{n}' is declared as a parameter but missing from the parameter list"
  | .resultNotWhole p => s!"return place '{p.render}' must be a root place"
  | .resultNotDeclared n => s!"return place '{n}' is not declared"
  | .unknownStatement n => "unknown statement " ++ n.record
  | .unknownValue n => "unknown value expression " ++ n.record
  | .unknownOperand n => "unknown operand " ++ n.record
  | .notAPlace n => "expected a place, got " ++ n.record
  | .notALoanKind n => "borrow kind must be a LoanKind, got " ++ n.record
  | .fieldTwice t => s!"aggregate '{t}' initializes a field twice"
  | .undeclaredRoot n => s!"use of undeclared root '{n}'"
  | .kindMismatch p k =>
    s!"place '{p.render}' uses root kind {p.root.kind.label} but '{p.name}' is declared {k.label}"
  | .undeclaredIndex v p => s!"index variable '{v}' in '{p.render}' is not declared"
  | .noTerminator b => s!"block {b} has no terminator"
  | .unknownTerminator n => "unknown terminator " ++ n.record
  | .noSuchBlock t => "terminator references nonexistent block " ++ t.record

/-- A refused draft: which function, where in it if a place in the body is to blame, and why. -/
structure Malformed where
  function : String
  point : Option Point
  fault : Fault

/-- What is said about a refused draft. -/
def Malformed.message (m : Malformed) : String :=
  match m.point with
  | none => m.function ++ ": " ++ m.fault.message
  | some p => m.function ++ " at " ++ p.render ++ ": " ++ m.fault.message

/-- Refuse unless a condition holds. -/
def require (ok : Bool) (fault : Fault) : Except Fault Unit :=
  if ok then .ok () else .error fault

/-! ## 2. Nodes -/

/-- A place whose root and index variables are declared. -/
def Node.toPlace (locals : Locals) : Node → Except Fault Place
  | .placeNode p =>
    match locals.get? p.name with
    | none => .error (.undeclaredRoot p.name)
    | some d => do
      require (d.root == p.root) (.kindMismatch p d.root.kind)
      match p.indexVars.find? fun v => (locals.get? v).isNone with
      | some v => .error (.undeclaredIndex v p)
      | none => .ok p
  | n => .error (.notAPlace n)

/-- The kind of a loan. -/
def Node.toLoanKind : Node → Except Fault LoanKind
  | .kindNode k => .ok k
  | n => .error (.notALoanKind n)

/-- An operand whose place is declared. -/
def Node.toOperand (locals : Locals) : Node → Except Fault Operand
  | .literalOperand v => .ok (.literal v)
  | .copyOperand p => .copy <$> p.toPlace locals
  | .moveOperand p => .move <$> p.toPlace locals
  | .refOperand p k => do
    let kind ← k.toLoanKind
    let place ← p.toPlace locals
    return .ref place kind
  | n => .error (.unknownOperand n)

/-- A value with declared places, no field of an aggregate given twice. -/
def Node.toValue (locals : Locals) : Node → Except Fault Value
  | .constValue v => .ok (.const v)
  | .allocValue t => .ok (.alloc t)
  | .useValue o => .use <$> o.toOperand locals
  | .cloneValue p => .clone <$> p.toPlace locals
  | .callValue f args => .call f <$> args.mapM (·.toOperand locals)
  | .aggregateValue t fields => do
    require (decide (fields.map Prod.fst).Nodup) (.fieldTwice t)
    .aggregate t <$> fields.mapM fun (n, o) => (n, ·) <$> o.toOperand locals
  | n => .error (.unknownValue n)

/-- A statement with declared places. The kind of a loan is looked at before the places. -/
def Node.toStatement (locals : Locals) : Node → Except Fault Statement
  | .assignStatement d v => do
    let dest ← d.toPlace locals
    let value ← v.toValue locals
    return .assign dest value
  | .borrowStatement d p k => do
    let kind ← k.toLoanKind
    let dest ← d.toPlace locals
    let place ← p.toPlace locals
    return .borrow dest place kind
  | .moveStatement d p => do
    let dest ← d.toPlace locals
    let src ← p.toPlace locals
    return .move dest src
  | .dropStatement p => .drop <$> p.toPlace locals
  | .evalStatement v => .eval <$> v.toValue locals
  | n => .error (.unknownStatement n)

/-- A jump target among `count` blocks. -/
def Node.toTarget (count : Nat) (n : Node) : Except Fault Nat :=
  match n with
  | .literalNode (.int (.ofNat t)) => if t < count then .ok t else .error (.noSuchBlock n)
  | _ => .error (.noSuchBlock n)

/-- The terminator of block `b`; the targets are looked at before the condition. -/
def Node.toTerminator (locals : Locals) (count b : Nat) : Node → Except Fault Terminator
  | .literalNode .absent => .error (.noTerminator b)
  | .gotoTerminator t => .goto <$> t.toTarget count
  | .branchTerminator c y n => do
    let yes ← y.toTarget count
    let no ← n.toTarget count
    let cond ← c.toOperand locals
    return .branch cond yes no
  | .retTerminator => .ok .ret
  | .unreachableTerminator => .ok .unreachable
  | n => .error (.unknownTerminator n)

/-! ## 3. Blocks and declarations -/

/-- Say where in the body a fault was found. -/
def located {α : Type} (function : String) (point : Option Point) :
    Except Fault α → Except Malformed α :=
  Except.mapError fun fault => ⟨function, point, fault⟩

namespace Draft

/-- Block `b` of a draft. -/
def validateBlock (d : Draft) (b : Nat) (block : DraftBlock) : Except Malformed Block := do
  let statements ← block.statements.zipIdx.mapM fun (n, i) =>
    located d.name (some ⟨b, i⟩) (n.toStatement d.locals)
  let terminator ← located d.name (some ⟨b, block.statements.length⟩)
    (block.terminator.toTerminator d.locals d.blocks.length b)
  return ⟨statements, terminator⟩

/-- Every declaration stands under its own name and has a registered type. -/
def checkLocals (d : Draft) (types : TypeTable) : Except Fault Unit :=
  d.locals.forM fun (key, decl) => do
    require (decl.root.name == key) (.keyMismatch key decl.root.name)
    require (decl.type.any types.contains) (.unknownType key decl.type)

/-- The parameters behind those named in `seen`: whole roots, named once, declared as such. -/
def checkParams (locals : Locals) : (seen : List String) → List Place → Except Fault Unit
  | _, [] => .ok ()
  | seen, p :: ps => do
    require p.isWhole (.paramNotWhole p)
    require (!seen.contains p.name) (.duplicateParam p.name)
    require ((locals.get? p.name).any fun decl => decl.root == p.root && decl.root.kind == .param)
      (.paramNotDeclared p.name)
    checkParams locals (p.name :: seen) ps

/-- Every root declared as a parameter is one. -/
def checkListed (d : Draft) : Except Fault Unit :=
  d.locals.forM fun (key, decl) =>
    require (decl.root.kind != .param || (d.params.map Place.name).contains key) (.paramNotListed key)

/-- The return place is a whole root, declared as such. -/
def checkResult (d : Draft) : Except Fault Unit := do
  require d.result.isWhole (.resultNotWhole d.result)
  require ((d.locals.get? d.result.name).any fun decl => decl.root == d.result.root)
    (.resultNotDeclared d.result.name)

/-- Everything outside the blocks. -/
def checkHead (d : Draft) (types : TypeTable) : Except Fault Unit := do
  require (!d.blocks.isEmpty) .noBlocks
  d.checkLocals types
  checkParams d.locals [] d.params
  d.checkListed
  d.checkResult

/-- The function a draft stands for, or the first thing wrong with it. -/
def validate (d : Draft) (types : TypeTable) : Except Malformed Function := do
  located d.name none (d.checkHead types)
  let blocks ← d.blocks.zipIdx.mapM fun (block, b) => d.validateBlock b block
  return { name := d.name, params := d.params, result := d.result, locals := d.locals,
           blocks := blocks }

end Draft

end Ownership
