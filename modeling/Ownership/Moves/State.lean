import Ownership.Place.Overlap
import Ownership.Place.Record
import Std.Data.ExtTreeMap

/-!
# Ownership states

What is left of a root's value: all of it, nothing, or all but the moved paths. In the last case the
empty path stands for "the whole value is gone on some of the ways here". Two states join to what is
known when either of them may hold.
-/

namespace Ownership

open Std

/-- What is left of a root's value. -/
inductive MoveState where
  /-- The whole value is there. -/
  | owned
  /-- The whole value is gone, or was never set. -/
  | moved
  /-- The listed parts are gone. -/
  | partly (gone : PathSet)
  deriving DecidableEq

namespace MoveState

/-- The paths that are gone. -/
def gone : MoveState → PathSet
  | .owned => ∅
  | .moved => (∅ : PathSet).insert []
  | .partly s => s

/-- The set without the paths that extend another of its paths. -/
def minimize (s : PathSet) : PathSet :=
  s.filter fun p => !s.toList.any fun q => q != p && q.isPrefixOf p

/-- The set without the paths at or under `p`. -/
def clear (p : Path) (s : PathSet) : PathSet := s.filter fun q => !p.isPrefixOf q

/-- What is known when the value is in either of two states. -/
def join (a b : MoveState) : MoveState :=
  if a = b then a
  else
    let union := a.gone ∪ b.gone
    if union.isEmpty then .owned else .partly (minimize union)

/-- After the value at `p` was moved out. -/
def afterMove (p : Path) (s : MoveState) : MoveState :=
  if p.isEmpty then .moved
  else match s with
    | .moved => .moved
    | s => .partly (minimize ((clear p s.gone).insert p))

/-- After a fresh value was written to `p`. Writing a part of a value that is gone as a whole does
    not bring the rest back. -/
def afterAssign (p : Path) (s : MoveState) : MoveState :=
  if p.isEmpty then .owned
  else match s with
    | .partly gone =>
      let rest := clear p gone
      if rest.isEmpty then .owned else .partly rest
    | s => s

/-- A moved path that overlaps `p`, the first by length and full form: what is missing when `p` is
    read. -/
def missing? (p : Path) : MoveState → Option Path
  | .owned => none
  | .moved => some []
  | .partly gone => (gone.toList.mergeSort fun a b => !Path.isBefore b a).find? (Path.overlaps · p)

/-- The whole value may be gone. -/
def maybeWhole : MoveState → Bool
  | .owned => false
  | .moved => true
  | .partly gone => gone.contains []

def render : MoveState → String
  | .owned => "Owned"
  | .moved => "Moved"
  | .partly gone => s!"PartiallyMoved({gone.size})"

end MoveState

/-- The states of the roots, by name. -/
abbrev MoveMap := ExtTreeMap String MoveState

namespace MoveMap

/-- The state of a root; one that is not listed was never set. -/
def stateOf (m : MoveMap) (root : String) : MoveState := m.getD root .moved

/-- Root by root what is known when either of two maps may hold. -/
def join (a b : MoveMap) : MoveMap :=
  (a.keys ++ b.keys).foldl (fun m k => m.insert k ((stateOf a k).join (stateOf b k))) ∅

end MoveMap

end Ownership
