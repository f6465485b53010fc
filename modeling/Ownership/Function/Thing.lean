import Ownership.Function.Draft
import Ownership.Text.Numeral

/-!
# Things

What a front end may put into the body of a function, whether it belongs there or not: constants,
lists and tuples, the members of the three enumerations, and records of the classes that bodies are
made of, whose parts are again any things. `Thing` has them all; a node of a draft is one of them.

Whatever is asked of a thing may fail: it need not have the part that is asked for, be something to
go through, be fit for a key, or have numbers short enough to be written out. `Raised` says how.
-/

namespace Ownership

open Text (CodePoint)

/-! ## 1. Things -/

/-- The classes of records. -/
inductive Form where
  | root | place | fieldStep | indexStep | derefStep
  | copyOperand | moveOperand | refOperand | literalOperand
  | constValue | allocValue | useValue | cloneValue | callValue | aggregateValue
  | assignStatement | borrowStatement | moveStatement | dropStatement | evalStatement
  | gotoTerminator | branchTerminator | retTerminator | unreachableTerminator
  deriving DecidableEq, Repr

/-- The name of a class and those of its parts, in order. -/
def Form.layout : Form → String × List String
  | .root => ("PlaceBase", ["kind", "name"])
  | .place => ("Place", ["base", "projections"])
  | .fieldStep => ("FieldProj", ["name"])
  | .indexStep => ("IndexProj", ["kind", "value", "var"])
  | .derefStep => ("DerefProj", [])
  | .copyOperand => ("Copy", ["place"])
  | .moveOperand => ("MoveOp", ["place"])
  | .refOperand => ("Ref", ["place", "kind"])
  | .literalOperand => ("Literal", ["value"])
  | .constValue => ("Const", ["value"])
  | .allocValue => ("Alloc", ["type_name"])
  | .useValue => ("Use", ["operand"])
  | .cloneValue => ("Clone", ["place"])
  | .callValue => ("Call", ["func", "args"])
  | .aggregateValue => ("Aggregate", ["type_name", "fields"])
  | .assignStatement => ("Assign", ["dest", "value"])
  | .borrowStatement => ("Borrow", ["dest", "of", "kind"])
  | .moveStatement => ("Move", ["dest", "src"])
  | .dropStatement => ("Drop", ["place"])
  | .evalStatement => ("Eval", ["value"])
  | .gotoTerminator => ("Goto", ["target"])
  | .branchTerminator => ("Branch", ["cond", "then_block", "else_block"])
  | .retTerminator => ("Return", [])
  | .unreachableTerminator => ("Unreachable", [])

/-- Anything that may stand in a body. -/
inductive Thing where
  | datum (v : Literal)
  | list (items : List Thing)
  | tuple (items : List Thing)
  | rootKind (k : RootKind)
  | indexKind (k : IndexKind)
  | loanKind (k : LoanKind)
  /-- A record, with its parts in the order of its class. -/
  | node (form : Form) (parts : List Thing)
  deriving Inhabited

/-- Why something cannot be done with a thing. -/
inductive Raised where
  | noPart (type part : String)
  | notIterable (type : String)
  | notUnpackable (type : String)
  | tooFew (count : Nat)
  | tooMany
  | unhashable (type : String)
  | notText (type : String)
  /-- A number has too many digits to be written out. -/
  | tooLong
  deriving DecidableEq, Repr

/-- What is said about it. -/
def Raised.message : Raised → String
  | .noPart c p => s!"'{c}' object has no attribute '{p}'"
  | .notIterable c => s!"'{c}' object is not iterable"
  | .notUnpackable c => s!"cannot unpack non-iterable {c} object"
  | .tooFew n => s!"not enough values to unpack (expected 2, got {n})"
  | .tooMany => "too many values to unpack (expected 2)"
  | .unhashable c => s!"unhashable type: '{c}'"
  | .notText c => s!"__str__ returned non-string (type {c})"
  | .tooLong => s!"Exceeds the limit ({Text.digitLimit} digits) for integer string conversion; "
      ++ "use sys.set_int_max_str_digits() to increase the limit"

namespace Thing

/-- The name of the class of a thing. -/
def className : Thing → String
  | .datum .absent => "NoneType"
  | .datum (.bool _) => "bool"
  | .datum (.int _) => "int"
  | .datum (.text _) => "str"
  | .list _ => "list"
  | .tuple _ => "tuple"
  | .rootKind _ => "PlaceKind"
  | .indexKind _ => "IndexKind"
  | .loanKind _ => "LoanKind"
  | .node form _ => form.layout.1

/-- A text as a thing. -/
def ofText (s : String) : Thing := .datum (.text (Text.codes s))

/-- The text that a thing is, unless it holds half a surrogate pair. -/
def text? : Thing → Option String
  | .datum (.text cs) => Text.decode? cs
  | _ => none

/-! ## 2. Parts, items, keys -/

/-- The part of a thing by name. A place has the name of its root, and a member of an enumeration has
    its own; nothing else is ever asked of such a member. -/
def part (name : String) : Thing → Except Raised Thing
  | .node .place (base :: steps) =>
    if name = "name" then part name base
    else match (Form.place.layout.2.zip (base :: steps)).lookup name with
      | some x => .ok x
      | none => .error (.noPart Form.place.layout.1 name)
  | .node form parts =>
    match (form.layout.2.zip parts).lookup name with
    | some x => .ok x
    | none => .error (.noPart form.layout.1 name)
  | .rootKind k => enumPart "PlaceKind" k.label
  | .indexKind k => enumPart "IndexKind" k.label
  | .loanKind k => enumPart "LoanKind" k.label
  | x => .error (.noPart x.className name)
where
  enumPart (type label : String) : Except Raised Thing :=
    if name = "name" then .ok (ofText label) else .error (.noPart type name)

/-- What going through a thing meets, one after the other; a text is gone through by characters. -/
def items : Thing → Except Raised (List Thing)
  | .list xs | .tuple xs => .ok xs
  | .datum (.text cs) => .ok (cs.map fun c => .datum (.text [c]))
  | x => .error (.notIterable x.className)

/-- The two things that a thing consists of. -/
def pair (x : Thing) : Except Raised (Thing × Thing) :=
  match x.items with
  | .ok [a, b] => .ok (a, b)
  | .ok [] => .error (.tooFew 0)
  | .ok [_] => .error (.tooFew 1)
  | .ok _ => .error .tooMany
  | .error _ => .error (.notUnpackable x.className)

mutual

/-- The class of the first list in a thing; with a list in it, it is not fit for a key. -/
def unhashable? : Thing → Option String
  | .list _ => some "list"
  | .tuple xs | .node _ xs => unhashableIn? xs
  | _ => none

/-- The same for several things, the first of them that has one. -/
def unhashableIn? : List Thing → Option String
  | [] => none
  | x :: xs => (unhashable? x).or (unhashableIn? xs)

end

/-- Make sure that a thing is fit for a key. -/
def asKey (x : Thing) : Except Raised Unit :=
  match x.unhashable? with
  | some c => .error (.unhashable c)
  | none => .ok ()

/-- Equal constants; a truth value is a number. -/
def sameDatum (a b : Literal) : Bool := number a == number b
where
  number : Literal → Literal
    | .bool true => .int 1
    | .bool false => .int 0
    | v => v

mutual

/-- The things count as equal. -/
def same : Thing → Thing → Bool
  | .datum a, .datum b => sameDatum a b
  | .list xs, .list ys => sameAll xs ys
  | .tuple xs, .tuple ys => sameAll xs ys
  | .rootKind a, .rootKind b => a == b
  | .indexKind a, .indexKind b => a == b
  | .loanKind a, .loanKind b => a == b
  | .node f xs, .node g ys => f == g && sameAll xs ys
  | _, _ => false

/-- The same for things in the same order. -/
def sameAll : List Thing → List Thing → Bool
  | [], [] => true
  | x :: xs, y :: ys => same x y && sameAll xs ys
  | _, _ => false

end

/-- No two of the things count as equal. -/
def allDistinct : List Thing → Bool
  | [] => true
  | x :: xs => !xs.any (same x) && allDistinct xs

/-! ## 3. Things as text -/

mutual

/-- Every number in the thing can be written out. -/
def prints : Thing → Bool
  | .datum v => v.prints
  | .list xs | .tuple xs | .node _ xs => printsAll xs
  | _ => true

/-- The same for several things. -/
def printsAll : List Thing → Bool
  | [] => true
  | x :: xs => prints x && printsAll xs

end

mutual

/-- The full form of a thing. -/
def record : Thing → String
  | .datum v => v.record
  | .list xs => "[" ++ ", ".intercalate (recordAll xs) ++ "]"
  | .tuple xs => Text.tuple (recordAll xs)
  | .rootKind k => k.record
  | .indexKind k => k.record
  | .loanKind k => k.record
  | .node form parts => Text.record form.layout.1 (form.layout.2.zip (recordAll parts))

/-- The full forms of several things. -/
def recordAll : List Thing → List String
  | [] => []
  | x :: xs => record x :: recordAll xs

end

/-- The full form, as far as it can be written out. -/
def fullForm (x : Thing) : Except Raised String := if x.prints then .ok x.record else .error .tooLong

mutual

/-- A thing inside a message. -/
def shown : Thing → Except Raised String
  | .datum (.text cs) => .ok (Text.plainText cs)
  | .rootKind k => .ok ("PlaceKind." ++ k.label)
  | .indexKind k => .ok ("IndexKind." ++ k.label)
  | .loanKind k => .ok k.render
  | .node .place [base, steps] => do
    -- the name is looked up at once, but written only when a step follows
    let name ← base.part "name"
    match steps with
    | .list (s :: ss) | .tuple (s :: ss) => shownSteps (shownName base) (s :: ss)
    | .datum (.text (_ :: _)) => .error (.noPart "str" "kind")
    | .list [] | .tuple [] | .datum (.text []) =>
      match name with
      | .datum (.text cs) => .ok (Text.plainText cs)
      | x => .error (.notText x.className)
    | x => .error (.notIterable x.className)
  | x => x.fullForm

/-- The name of a thing inside a message. -/
def shownName : Thing → Except Raised String
  | .node .root [_, name] => shown name
  | .node .fieldStep [name] => shown name
  | .node .place (base :: _) => shownName base
  | .rootKind k => .ok k.label
  | .indexKind k => .ok k.label
  | .loanKind k => .ok k.label
  | x => .error (.noPart x.className "name")

/-- A path behind what `out` shows. -/
def shownSteps (out : Except Raised String) : List Thing → Except Raised String
  | [] => out
  | .node .derefStep _ :: rest => do
    let before ← out
    shownSteps (.ok (if rest.isEmpty then "*" ++ before else "(*" ++ before ++ ")")) rest
  | .node .fieldStep [name] :: rest => do
    let before ← out
    let field ← shown name
    shownSteps (.ok (before ++ "." ++ field)) rest
  | .node .indexStep [kind, value, var] :: rest => do
    let before ← out
    let inside ← match kind, var with
      | .indexKind .const, _ => shown value
      | _, .datum .absent => .ok "_"
      | _, _ => shown var
    shownSteps (.ok (before ++ "[" ++ inside ++ "]")) rest
  | x :: _ => do
    -- no other class that has a kind has the parts of an index
    let kind ← x.part "kind"
    let _ ← out
    match kind with
    | .indexKind .const => .error (.noPart x.className "value")
    | _ => .error (.noPart x.className "var")

end

end Thing

end Ownership
