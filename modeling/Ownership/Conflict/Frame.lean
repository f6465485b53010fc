import Ownership.Flow.Graph
import Ownership.Place.Overlap
import Ownership.Place.Printer

/-!
# Storage frames

Storage ends when the function returns, for all its local variables and temporaries, or where a
statement drops a place. Either is a frame: the places whose storage ends, and the points where.
-/

namespace Ownership

inductive FrameKind where
  | function
  | drop
  deriving DecidableEq, Repr

structure Frame where
  kind : FrameKind
  name : String
  places : List Place
  exits : List Point

/-- The storage of the root is part of the call. -/
def Root.isFrameOwned (r : Root) : Bool := r.kind == .localVar || r.kind == .temp

/-- The frame releases the storage of the place; what lies behind a reference is never released. -/
def Frame.owns (fr : Frame) (p : Place) : Bool :=
  !p.hasDeref && match fr.kind with
    | .function => p.root.isFrameOwned
    | .drop => fr.places.any (Place.overlaps · p)

namespace Function

variable (f : Function)

/-- The points at which reachable blocks return. -/
def returns (g : Graph) : List Point :=
  g.reachable.filterMap fun b =>
    if (f.block b).terminator = .ret then some (f.exitOf b) else none

/-- The local variables and temporaries, by name. -/
def frameRoots : List Place :=
  (f.locals.mergeSort fun a b => !(decide (b.1 < a.1))).filterMap fun (_, d) =>
    if d.root.isFrameOwned then some ⟨d.root, []⟩ else none

/-- The frame of a dropped place. -/
def dropFrame? : Statement × Point → Option Frame
  | (.drop p, pt) => if p.hasDeref then none else some ⟨.drop, "drop " ++ p.render, [p], [pt]⟩
  | _ => none

/-- The frame of the call, then one for each place dropped in a reachable block, in point order. -/
def frames (g : Graph) : List Frame :=
  ⟨.function, f.name, f.frameRoots, f.returns g⟩
    :: g.reachable.flatMap fun b => (f.statementsOf b).filterMap dropFrame?

end Function

end Ownership
