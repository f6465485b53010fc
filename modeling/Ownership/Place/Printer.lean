import Ownership.Place.Basic

/-!
# Places as text

`Place.render` writes a path from left to right: `x`, `x.f`, `x[0]`, `x[i]`, `x[_]`, `*r`,
`(*r).f`. A step after a dereference binds tighter than the star, hence the parentheses.
-/

namespace Ownership

/-- The text between the brackets of an index. It is told for every number; `Projection.renders` says
    which can be written out. -/
def Index.render (i : Index) : String :=
  match i.kind with
  | .const => match i.value with
    | some n => toString n
    | none => "None"
  | .any => i.var.getD "_"

/-- The text of the path behind what `out` already shows. -/
def Path.renderFrom (out : String) : Path → String
  | [] => out
  | .deref :: [] => "*" ++ out
  | .deref :: rest => renderFrom ("(*" ++ out ++ ")") rest
  | .field f :: rest => renderFrom (out ++ "." ++ f) rest
  | .index i :: rest => renderFrom (out ++ "[" ++ i.render ++ "]") rest

/-- The text of a place. -/
def Place.render (p : Place) : String := Path.renderFrom p.root.name p.path

end Ownership
