import Ownership.Types.Table
import Std.Data.ExtTreeSet

/-!
# Types that carry references

A value of a type may hold a reference when the type is one, or is a struct or an array built on a
type that carries one. Structs may name types that are registered later, themselves included, so
the search remembers the types it has looked at.
-/

namespace Ownership

open Std

/-- The types whose references a value holds as well: the parts of a struct or an array. -/
def Shape.inner : Shape → List TypeId
  | .struct fields _ => (fields.map Prod.snd).filterMap id
  | .array t => [t]
  | _ => []

namespace TypeTable

/-- The number of type numbers written down in the definitions: a bound on what a search opens. -/
def partCount (t : TypeTable) : Nat := (t.defs.flatMap fun d => d.shape.inner).length

/-- Look for a reference among the types of `open_` and what they are built on, `seen` apart. Every
    step takes one number off the list and each type is opened once, so `fuel` of one more than
    `partCount` for a single starting type is enough. -/
def findRef (t : TypeTable) : (fuel : Nat) → (open_ : List TypeId) → (seen : ExtTreeSet TypeId) → Bool
  | 0, _, _ => false
  | _ + 1, [], _ => false
  | fuel + 1, i :: rest, seen =>
    if seen.contains i then findRef t fuel rest seen
    else match t.def? i with
      | none => findRef t fuel rest seen
      | some d => match d.shape with
        | .ref _ _ => true
        | s => findRef t fuel (s.inner ++ rest) (seen.insert i)

/-- A value of the type may hold a reference. -/
def carriesRef (t : TypeTable) (id : Option TypeId) : Bool :=
  match id with
  | none => false
  | some i => t.findRef (t.partCount + 1) [i] ∅

end TypeTable

end Ownership
