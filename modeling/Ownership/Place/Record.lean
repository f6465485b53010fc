import Ownership.Place.Basic
import Ownership.Text.Quoted
import Ownership.Text.Record

/-!
# Places as records

The full form of a place, every part by name, as a message quotes it when it meets a place where it
expected something else. Among several moved paths the shortest is named first, and among paths of
one length the one whose full form comes first (`Path.isBefore`).
-/

namespace Ownership

open Text

/-- The name of a kind of root. -/
def RootKind.label : RootKind → String
  | .localVar => "LOCAL"
  | .param => "PARAM"
  | .temp => "TEMP"
  | .result => "RETURN"
  | .globalVar => "GLOBAL"

/-- The full form of a kind of root. -/
def RootKind.record : RootKind → String
  | .localVar => "<PlaceKind.LOCAL: 1>"
  | .param => "<PlaceKind.PARAM: 2>"
  | .temp => "<PlaceKind.TEMP: 3>"
  | .result => "<PlaceKind.RETURN: 4>"
  | .globalVar => "<PlaceKind.GLOBAL: 5>"

/-- The name of a kind of index. -/
def IndexKind.label : IndexKind → String
  | .any => "ANY"
  | .const => "CONST"

/-- The full form of a kind of index. -/
def IndexKind.record : IndexKind → String
  | .any => "<IndexKind.ANY: 1>"
  | .const => "<IndexKind.CONST: 2>"

/-- The full form of a root. -/
def Root.record (r : Root) : String :=
  Text.record "PlaceBase" [("kind", r.kind.record), ("name", quote r.name)]

/-- The full form of a step. It is told for every number; `Projection.prints` says which can be written
    out. -/
def Projection.record : Projection → String
  | .field n => Text.record "FieldProj" [("name", quote n)]
  | .index i => Text.record "IndexProj"
      [("kind", i.kind.record), ("value", (i.value.map toString).getD "None"),
       ("var", (i.var.map quote).getD "None")]
  | .deref => Text.record "DerefProj" []

/-- The full form of a path. -/
def Path.record (p : Path) : String := tuple (p.map Projection.record)

/-- The full form of a place. -/
def Place.record (p : Place) : String :=
  Text.record "Place" [("base", p.root.record), ("projections", Path.record p.path)]

/-- Shorter paths first, then by full form. -/
def Path.isBefore (p q : Path) : Bool :=
  p.length < q.length || (p.length == q.length && decide (Path.record p < Path.record q))

end Ownership
