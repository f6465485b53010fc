import Ownership.Types.Table

/-!
# The registry behind a type table

What a table answers from its list of definitions is kept ready in parts of their own: the numbers
of the named types, one cache for references and one for arrays, the next number to be given out,
and the numbers of `Int`, `Bool` and `Unknown`. A call on the registry reads and changes these parts
one after the other. When it is refused, whatever it has changed until then stays changed; that
nothing has is a property of the order of its steps.
-/

namespace Ownership

/-- A call that registers a type or asks for one. -/
inductive TypeCall where
  | scalar (name : String)
  | owned (name : String)
  | struct (name : String) (fields : Roster (Option TypeId)) (copy : Bool)
  | int
  | bool
  | unknown
  | ref (unique : Bool) (target : Option TypeId)
  | array (element : Option TypeId)
  deriving DecidableEq, Repr

/-- The parts of a type table. A map gives for each key what the key is bound to. -/
structure Registry where
  defs : TypeId → Option TypeDef := fun _ => none
  /-- The numbers of the types that were registered under a name. -/
  byName : String → Option TypeId := fun _ => none
  /-- The references that were asked for, by what they point to and whether they are exclusive. -/
  refs : Option TypeId × Bool → Option TypeId := fun _ => none
  /-- The arrays that were asked for, by their elements. -/
  arrays : Option TypeId → Option TypeId := fun _ => none
  nextId : TypeId := 1
  intId : Option TypeId := none
  boolId : Option TypeId := none
  unknownId : Option TypeId := none

/-- A call under way: it may be refused, and leaves a registry behind in either case. -/
abbrev Registering := ExceptT TypeError (StateM Registry)

/-- A map with a key bound anew. -/
def rebind {κ ν : Type} [DecidableEq κ] (m : κ → Option ν) (key : κ) (value : ν) (k : κ) : Option ν :=
  if k = key then some value else m k

namespace Registry

/-- Reading a value of the type never moves it. -/
def isCopy (r : Registry) (id : Option TypeId) : Bool :=
  match id.bind r.defs with
  | some d => d.shape.isPlain
  | none => false

/-- The type that a number stands for. -/
def fetch (id : Option TypeId) : Registering (TypeId × TypeDef) := do
  match id with
  | none => throw (.unknownId id)
  | some i =>
    match (← get).defs i with
    | none => throw (.unknownId id)
    | some d => return (i, d)

/-- Enter a definition under the next number, and under its name if it is one of the `named`. -/
def enter (d : TypeDef) (named : Bool) : Registering TypeId := do
  if named && ((← get).byName d.name).isSome then
    throw (.duplicateName d.name)
  let id := (← get).nextId
  modify fun r => { r with nextId := r.nextId + 1 }
  modify fun r => { r with defs := rebind r.defs id d }
  if named then
    modify fun r => { r with byName := rebind r.byName d.name id }
  return id

/-- Refuse the first field whose values are not copied when they are read. -/
def checkFields (name : String) (fields : Roster (Option TypeId)) : Registering Unit :=
  forM fields fun (f, id) => do
    unless (← get).isCopy id do
      throw (.nonCopyField name f)

/-- Enter a struct; the fields of a copy struct are looked at first. -/
def enterStruct (name : String) (fields : Roster (Option TypeId)) (copy : Bool) :
    Registering TypeId := do
  if copy then
    checkFields name fields
  enter ⟨name, .struct fields copy⟩ true

/-- Enter a type built on the type `id`. -/
def enterBuilt (shape : TypeId → Shape) (rename : String → String) (id : Option TypeId) :
    Registering TypeId := do
  let (i, d) ← fetch id
  enter ⟨rename d.name, shape i⟩ false

/-- The number that is remembered in a place of the registry; where there is none, a new one is
    made and remembered. -/
def remembered (slot : Registry → Option TypeId) (keep : TypeId → Registry → Registry)
    (make : Registering TypeId) : Registering TypeId := do
  match slot (← get) with
  | some i => return i
  | none =>
    let i ← make
    modify (keep i)
    return i

/-- What a call does. -/
def perform : TypeCall → Registering TypeId
  | .scalar n => enter ⟨n, .scalar⟩ true
  | .owned n => enter ⟨n, .owned⟩ true
  | .struct n fields copy => enterStruct n fields copy
  | .int =>
    remembered intId (fun i r => { r with intId := some i }) (enter ⟨"Int", .scalar⟩ true)
  | .bool =>
    remembered boolId (fun i r => { r with boolId := some i }) (enter ⟨"Bool", .scalar⟩ true)
  | .unknown =>
    remembered unknownId (fun i r => { r with unknownId := some i })
      (enter ⟨"Unknown", .unknown⟩ true)
  | .ref u id =>
    remembered (·.refs (id, u)) (fun i r => { r with refs := rebind r.refs (id, u) i })
      (enterBuilt (.ref u) ((if u then "&mut " else "&") ++ ·) id)
  | .array id =>
    remembered (·.arrays id) (fun i r => { r with arrays := rebind r.arrays id i })
      (enterBuilt .array (fun n => "Array<" ++ n ++ ">") id)

/-- What a call gives, and the registry it leaves. -/
def call (r : Registry) (c : TypeCall) : Except TypeError TypeId × Registry :=
  (perform c).run.run r

/-- The registry behind a call. -/
def after (r : Registry) (c : TypeCall) : Registry := (r.call c).2

/-- The registry behind several calls, refused ones among them. -/
def afterAll (r : Registry) (cs : List TypeCall) : Registry := cs.foldl after r

end Registry

end Ownership
