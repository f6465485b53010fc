import Ownership.Place.Basic

/-!
# Overlap of places

`Place.overlaps` is the one answer to "may these two places share storage?", asked by the ownership
pass, the conflict checks and the scope checks. It is conservative: two places are disjoint only
when their roots differ, or when the first step at which their paths part names two different
fields or two different known positions.
-/

namespace Ownership

/-- Two steps out of the same place that certainly lead to different storage. -/
def Projection.isApart : Projection → Projection → Bool
  | .field f, .field g => f != g
  | .index i, .index j =>
    match i.position?, j.position? with
    | some m, some n => m != n
    | _, _ => false
  | _, _ => false

/-- Two paths from one root may share storage: one extends the other, or the steps at which they
    part are not certainly apart. -/
def Path.overlaps : Path → Path → Bool
  | [], _ => true
  | _, [] => true
  | s :: p, t :: q => if s = t then Path.overlaps p q else !s.isApart t

namespace Place

/-- Two places may share storage. -/
def overlaps (a b : Place) : Bool :=
  a.root == b.root && Path.overlaps a.path b.path

/-- `b` is `a` or a part of it. -/
def covers (a b : Place) : Bool :=
  a.root == b.root && a.path.isPrefixOf b.path

/-- `b` is reached through a reference stored in `a`, so that replacing what `a` holds leaves the
    storage of `b` untouched. -/
def isBehind (a b : Place) : Bool :=
  a.covers b && (b.path.drop a.path.length).any Projection.isDeref

end Place

end Ownership
