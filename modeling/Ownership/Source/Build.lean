import Ownership.Function.Draft
import Ownership.Source.Literal
import Ownership.Source.Reader
import Ownership.Verify.Program

/-!
# From source trees to programs

Names are looked up only as far as needed: a type has to be declared before it is used, while a root
that the function does not declare becomes a local variable, for validation to refuse. Items are
built in the order of the text, and the first complaint ends the building.
-/

namespace Ownership.Source

/-- Refuse a token for a cause. -/
def refuse {α : Type} (cause : Cause) (t : Token) : Except Error α :=
  .error (.refused cause (some t.pos))

/-! ## 1. Types -/

/-- A type given on demand. -/
def onDemand (r : Except TypeError (TypeTable × TypeId)) : Except Error (TypeTable × TypeId) :=
  r.mapError .typeTaken

/-- The type registered under a new name. -/
def registered (name : Token) (r : Except TypeError (TypeTable × TypeId)) : Except Error TypeTable :=
  match r with
  | .ok (types, _) => .ok types
  | .error e => refuse (.badType e) name

def TypeTree.build (types : TypeTable) : TypeTree → Except Error (TypeTable × TypeId)
  | .named t =>
    if t.text = "Unknown" then onDemand types.ensureUnknown
    else match types.lookup t.text with
      | some i => .ok (types, i)
      | none => refuse (.unknownType t.text) t
  | .ref unique target => do
    let (types, i) ← target.build types
    onDemand (types.ensureRef unique (some i))
  | .array element => do
    let (types, i) ← element.build types
    onDemand (types.ensureArray (some i))

/-- The fields of a struct, behind those already built. -/
def buildFields (struct : String) : List (Token × TypeTree) → TypeTable → Roster (Option TypeId) →
    Except Error (TypeTable × Roster (Option TypeId))
  | [], types, fields => .ok (types, fields)
  | (x, ty) :: rest, types, fields => do
    if (fields.get? x.text).isSome then refuse (.duplicateField x.text struct) x
    else
      let (types, i) ← ty.build types
      buildFields struct rest types (fields.put x.text (some i))

/-! ## 2. Places, operands, values -/

/-- A run of digits as a number. -/
def readNumber (t : Token) : Except Error Nat := (Text.readDigits t.text.toList).mapError .tooManyDigits

def StepTree.build : StepTree → Except Error Projection
  | .field t => .ok (.field t.text)
  | .deref => .ok .deref
  | .position t => do
    let n ← readNumber t
    return Projection.element (some (.inl n))
  | .element t => .ok (Projection.element (some (.inr t.text)))
  | .anyElement => .ok (Projection.element none)

def PlaceTree.build (scope : Locals) (p : PlaceTree) : Except Error Place := do
  let path ← p.steps.mapM StepTree.build
  return ⟨scope.rootOf p.root.text, path⟩

/-- How the text of a string literal is found. -/
abbrev Evaluation := String → Except Error (List Text.CodePoint)

def LiteralTree.build (evaluate : Evaluation) : LiteralTree → Except Error Literal
  | .number t => do
    let n ← readNumber t
    return .int n
  | .bool b => .ok (.bool b)
  | .string t => .text <$> evaluate t.text

def OperandTree.build (evaluate : Evaluation) (scope : Locals) : OperandTree → Except Error Operand
  | .copy p => .copy <$> p.build scope
  | .move p => .move <$> p.build scope
  | .ref k p => do
    let place ← p.build scope
    return .ref place k
  | .literal v => .literal <$> v.build evaluate

def ValueTree.build (evaluate : Evaluation) (scope : Locals) : ValueTree → Except Error Value
  | .operand (.literal v) => .const <$> v.build evaluate
  | .operand o => .use <$> o.build evaluate scope
  | .clone p => .clone <$> p.build scope
  | .alloc t => .ok (.alloc t.text)
  | .call f args => .call f.text <$> args.mapM (OperandTree.build evaluate scope)
  | .aggregate t fields => .aggregate t.text <$> fields.mapM fun (x, o) => do
    let o ← o.build evaluate scope
    return (x.text, o)

/-! ## 3. Statements and blocks -/

/-- A borrow or a move on the right of `=` is a statement of its own. -/
def StatementTree.build (evaluate : Evaluation) (scope : Locals) :
    StatementTree → Except Error Statement
  | .assign d v => do
    let dest ← d.build scope
    match v with
    | .operand (.ref k p) => do
      let place ← p.build scope
      return .borrow dest place k
    | .operand (.move p) => do
      let place ← p.build scope
      return .move dest place
    | v => do
      let value ← v.build evaluate scope
      return .assign dest value
  | .drop p => .drop <$> p.build scope
  | .eval v => .eval <$> v.build evaluate scope

/-- The number of a label `bbN`. -/
def blockNumber (label : Token) : Except Error Nat :=
  match label.text.toList with
  | 'b' :: 'b' :: d :: ds =>
    if (d :: ds).all Char.isDigit then (Text.readDigits (d :: ds)).mapError .tooManyDigits
    else refuse (.notALabel label.text) label
  | _ => refuse (.notALabel label.text) label

def TerminatorTree.build (evaluate : Evaluation) (scope : Locals) :
    TerminatorTree → Except Error Terminator
  | .goto l => .goto <$> blockNumber l
  | .branch c y n => do
    let cond ← c.build evaluate scope
    let yes ← blockNumber y
    let no ← blockNumber n
    return .branch cond yes no
  | .ret => .ok .ret
  | .unreachable => .ok .unreachable

/-- The block that stands at `index` in its function, whose label has to say so. -/
def BlockTree.build (evaluate : Evaluation) (scope : Locals) (index : Nat) (b : BlockTree) :
    Except Error Block := do
  let n ← blockNumber b.label
  if n ≠ index then refuse (.wrongLabel index b.label.text) b.label
  else
    let statements ← b.statements.mapM (StatementTree.build evaluate scope)
    let terminator ← b.terminator.build evaluate scope
    return ⟨statements, terminator⟩

/-! ## 4. Functions -/

/-- Declare a root; a name declared before is refused before its type is looked at. -/
def declare (function : String) (kind : RootKind) (name : String) (pos : Option Position)
    (type : TypeTree) (types : TypeTable) (scope : Locals) : Except Error (TypeTable × Locals) := do
  if (scope.get? name).isSome then .error (.refused (.declaredTwice name function) pos)
  else
    let (types, i) ← type.build types
    return (types, scope.put name ⟨⟨kind, name⟩, some i⟩)

/-- Declare several roots in turn. -/
def declareAll (function : String) : List DeclTree → TypeTable → Locals → Except Error (TypeTable × Locals)
  | [], types, scope => .ok (types, scope)
  | d :: ds, types, scope => do
    let (types, scope) ← declare function d.kind d.name.text (some d.name.pos) d.type types scope
    declareAll function ds types scope

/-- The name of the return place. -/
def ResultTree.name : Option ResultTree → String
  | some (.named x _) => x.text
  | _ => defaultResult

/-- Declare the return place, as far as its type is given. -/
def declareResult (function : String) (r : Option ResultTree) (types : TypeTable) (scope : Locals) :
    Except Error (TypeTable × Locals) :=
  match r with
  | none => .ok (types, scope)
  | some (.anonymous ty) => declare function .result defaultResult none ty types scope
  | some (.named x ty) => declare function .result x.text (some x.pos) ty types scope

/-- A function that gives no return type returns an `Int` under the default name, which it may not
    use for anything else. -/
def defaultedResult (f : FunctionTree) (types : TypeTable) (scope : Locals) :
    Except Error (TypeTable × Locals) :=
  match f.result with
  | some _ => .ok (types, scope)
  | none =>
    if (scope.get? defaultResult).isSome then refuse (.reservedResult defaultResult) f.name
    else do
      let (types, i) ← onDemand types.ensureInt
      return (types, scope.put defaultResult ⟨⟨.result, defaultResult⟩, some i⟩)

def FunctionTree.build (evaluate : Evaluation) (f : FunctionTree) (types : TypeTable) :
    Except Error (TypeTable × Function) := do
  let function := f.name.text
  let (types, scope) ← declareAll function f.params types []
  let (types, scope) ← declareResult function f.result types scope
  let (types, scope) ← declareAll function f.locals types scope
  let (types, scope) ← defaultedResult f types scope
  let blocks ← f.blocks.zipIdx.mapM fun (b, i) => b.build evaluate scope i
  return (types, { name := function, params := f.params.map fun d => ⟨⟨.param, d.name.text⟩, []⟩,
                   result := ⟨⟨.result, ResultTree.name f.result⟩, []⟩, locals := scope,
                   blocks := blocks })

/-! ## 5. Texts -/

/-- The types and functions of a text. -/
structure Contents where
  types : TypeTable
  functions : Roster Function

/-- The contents with one more item. -/
def Item.build (evaluate : Evaluation) (u : Contents) : Item → Except Error Contents
  | .scalarType x => do
    let types ← registered x (u.types.addScalar x.text)
    return { u with types := types }
  | .ownedType x => do
    let types ← registered x (u.types.addOwned x.text)
    return { u with types := types }
  | .struct copy x fields => do
    let (types, fields) ← buildFields x.text fields u.types []
    let types ← registered x (types.addStruct x.text fields copy)
    return { u with types := types }
  | .function tree => do
    let (types, f) ← tree.build evaluate u.types
    if (u.functions.get? f.name).isSome then
      .error (.refused (.duplicateFunction f.name) (some tree.pos))
    else
      return ⟨types, u.functions.put f.name f⟩

/-- The table every text starts with. -/
def startTypes : Except Error TypeTable := do
  let (types, _) ← onDemand ({} : TypeTable).ensureInt
  let (types, _) ← onDemand types.ensureBool
  return types

/-- The types and functions of the items of a text. -/
def build (evaluate : Evaluation) (items : List Item) : Except Error Contents := do
  let types ← startTypes
  items.foldlM (Item.build evaluate) ⟨types, []⟩

/-- The types and functions of a text. All of it is read before anything is built. -/
def parse (evaluate : Evaluation) (text : String) : Except Error Contents := do
  let items ← Item.readAll text
  build evaluate items

/-- The same, for a text that has to hold exactly one function. -/
def parseSingle (evaluate : Evaluation) (text : String) : Except Error Contents := do
  let u ← parse evaluate text
  if u.functions.length = 1 then return u
  else .error (.refused (.notOneFunction u.functions.length) none)

/-- The contents as a program to check. -/
def Contents.program (u : Contents) : Program := ⟨u.types, u.functions.map fun (n, f) => (n, f.draft)⟩

end Ownership.Source
