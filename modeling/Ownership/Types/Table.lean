import Ownership.Roster

/-!
# The type table

Types are registered one after the other and named by their number, from 1 on. A definition never
changes once it is in the table. Scalars, owned types, structs and the unknown type are registered
under a name that no other such type has; references and arrays are registered on demand, one for
each type they are built on.

`Int`, `Bool` and `Unknown` are also given on demand, once. They are remembered apart from the
names: a type of one of these names that was registered by hand is in the way.
-/

namespace Ownership

/-- The number of a type. Numbers that no type has may be written down; they name nothing. -/
abbrev TypeId := Int

/-- What a type is made of. -/
inductive Shape where
  /-- A plain value. -/
  | scalar
  /-- An owner of storage elsewhere. -/
  | owned
  /-- Named fields; `copy` marks one whose reads never move it. -/
  | struct (fields : Roster (Option TypeId)) (copy : Bool)
  /-- An owning array. -/
  | array (element : TypeId)
  /-- A reference, exclusive when `unique`. -/
  | ref (unique : Bool) (target : TypeId)
  /-- Nothing is known, so it is taken to own. -/
  | unknown
  deriving DecidableEq, Repr

/-- References and arrays are found by what they are built on, all other types by name. -/
def Shape.isNamed : Shape → Bool
  | .array _ | .ref _ _ => false
  | _ => true

/-- Values of the shape are copied when they are read. -/
def Shape.isPlain : Shape → Bool
  | .scalar | .ref .. => true
  | .struct _ copy => copy
  | .owned | .array _ | .unknown => false

/-- The types a type is built on, in order. -/
def Shape.parts : Shape → List (Option TypeId)
  | .struct fields _ => fields.map Prod.snd
  | .array t | .ref _ t => [some t]
  | _ => []

/-- A registered type. -/
structure TypeDef where
  name : String
  shape : Shape
  deriving DecidableEq, Repr

/-- Why a type is not registered or not found. -/
inductive TypeError where
  | duplicateName (name : String)
  | nonCopyField (struct field : String)
  | unknownId (id : Option TypeId)
  deriving DecidableEq, Repr

def TypeError.message : TypeError → String
  | .duplicateName n => s!"duplicate type name '{n}'"
  | .nonCopyField s f => s!"copy struct '{s}' has non-Copy field '{f}'"
  | .unknownId none => "None"
  | .unknownId (some i) => toString i

/-- The table: the definitions in the order of their numbers, and the types given on demand. -/
structure TypeTable where
  defs : List TypeDef := []
  intId : Option TypeId := none
  boolId : Option TypeId := none
  unknownId : Option TypeId := none
  deriving DecidableEq, Repr

namespace TypeTable

/-! ## 1. Questions -/

/-- The definition of a number. -/
def def? (t : TypeTable) : TypeId → Option TypeDef
  | .ofNat (n + 1) => t.defs[n]?
  | _ => none

/-- What the type of a number, if there is one, is made of. -/
def shape? (t : TypeTable) (id : Option TypeId) : Option Shape :=
  (id.bind t.def?).map TypeDef.shape

def contains (t : TypeTable) (id : TypeId) : Bool := (t.def? id).isSome

/-- The definition of a number, or the complaint that it has none. -/
def get (t : TypeTable) (id : Option TypeId) : Except TypeError TypeDef :=
  match id.bind t.def? with
  | some d => .ok d
  | none => .error (.unknownId id)

/-- The number of the first definition with a property. -/
def findId? (t : TypeTable) (p : TypeDef → Bool) : Option TypeId :=
  (t.defs.findIdx? p).map fun i => ((i + 1 : Nat) : Int)

/-- The type registered under a name. -/
def lookup (t : TypeTable) (name : String) : Option TypeId :=
  t.findId? fun d => d.shape.isNamed && d.name == name

/-- Reading a value of the type never moves it. -/
def isCopy (t : TypeTable) (id : Option TypeId) : Bool :=
  match t.shape? id with
  | some .scalar | some (.ref _ _) => true
  | some (.struct _ copy) => copy
  | _ => false

def isRef (t : TypeTable) (id : Option TypeId) : Bool :=
  match t.shape? id with
  | some (.ref _ _) => true
  | _ => false

/-- The type of a field of a struct. -/
def fieldType (t : TypeTable) (id : Option TypeId) (field : String) : Option TypeId :=
  match t.shape? id with
  | some (.struct fields _) => (fields.get? field).join
  | _ => none

/-- The type of an array's elements. -/
def elementType (t : TypeTable) (id : Option TypeId) : Option TypeId :=
  match t.shape? id with
  | some (.array e) => some e
  | _ => none

/-- The type a reference points to. -/
def targetType (t : TypeTable) (id : Option TypeId) : Option TypeId :=
  match t.shape? id with
  | some (.ref _ e) => some e
  | _ => none

/-! ## 2. Registering -/

/-- The table with one more definition, and its number. -/
def push (t : TypeTable) (d : TypeDef) : TypeTable × TypeId :=
  ({ t with defs := t.defs ++ [d] }, ((t.defs.length + 1 : Nat) : Int))

/-- Register a type under a name of its own. -/
def add (t : TypeTable) (d : TypeDef) : Except TypeError (TypeTable × TypeId) :=
  match t.lookup d.name with
  | some _ => .error (.duplicateName d.name)
  | none => .ok (t.push d)

def addScalar (t : TypeTable) (name : String) : Except TypeError (TypeTable × TypeId) :=
  t.add ⟨name, .scalar⟩

def addOwned (t : TypeTable) (name : String) : Except TypeError (TypeTable × TypeId) :=
  t.add ⟨name, .owned⟩

/-- Register a struct. A copy struct holds copyable fields only; a field that is not is reported
    before a name that is taken. -/
def addStruct (t : TypeTable) (name : String) (fields : Roster (Option TypeId)) (copy : Bool) :
    Except TypeError (TypeTable × TypeId) :=
  match if copy then fields.find? fun f => !t.isCopy f.2 else none with
  | some (f, _) => .error (.nonCopyField name f)
  | none => t.add ⟨name, .struct fields copy⟩

def ensureInt (t : TypeTable) : Except TypeError (TypeTable × TypeId) :=
  match t.intId with
  | some i => .ok (t, i)
  | none => (t.addScalar "Int").map fun (t, i) => ({ t with intId := some i }, i)

def ensureBool (t : TypeTable) : Except TypeError (TypeTable × TypeId) :=
  match t.boolId with
  | some i => .ok (t, i)
  | none => (t.addScalar "Bool").map fun (t, i) => ({ t with boolId := some i }, i)

def ensureUnknown (t : TypeTable) : Except TypeError (TypeTable × TypeId) :=
  match t.unknownId with
  | some i => .ok (t, i)
  | none => (t.add ⟨"Unknown", .unknown⟩).map fun (t, i) => ({ t with unknownId := some i }, i)

/-- The type of a shape built on the type `id`, registered the first time it is asked for under the
    name that `rename` gives it. -/
def ensureBuilt (t : TypeTable) (shape : TypeId → Shape) (rename : String → String)
    (id : Option TypeId) : Except TypeError (TypeTable × TypeId) :=
  match id with
  | none => .error (.unknownId none)
  | some i =>
    match t.findId? fun d => d.shape == shape i with
    | some j => .ok (t, j)
    | none => (t.get (some i)).map fun d => t.push ⟨rename d.name, shape i⟩

/-- The reference type to `id`. -/
def ensureRef (t : TypeTable) (unique : Bool) (id : Option TypeId) :
    Except TypeError (TypeTable × TypeId) :=
  t.ensureBuilt (.ref unique) ((if unique then "&mut " else "&") ++ ·) id

/-- The array type over `id`. -/
def ensureArray (t : TypeTable) (id : Option TypeId) : Except TypeError (TypeTable × TypeId) :=
  t.ensureBuilt .array (fun n => "Array<" ++ n ++ ">") id

end TypeTable

end Ownership
