import Ownership.Text.Json
import Std.Data.ExtTreeMap
import Std.Data.ExtTreeSet

/-!
# Program points

A point is a block and a position in it; the terminator stands behind the last statement. Points
are ordered by block, then by position.
-/

namespace Ownership

open Std

structure Point where
  block : Nat
  stmt : Nat
  deriving DecidableEq, Repr

namespace Point

def render (p : Point) : String := s!"bb{p.block}[{p.stmt}]"

def toJson (p : Point) : Json := .arr [.int p.block, .int p.stmt]

/-- By block, then by position. -/
abbrev order : Point → Point → Ordering :=
  compareLex (compareOn Point.block) (compareOn Point.stmt)

instance : Ord Point where
  compare := order

instance : TransOrd Point := inferInstanceAs (TransCmp order)

instance : LawfulEqOrd Point where
  compare_self {p} := show order p p = .eq from ReflCmp.compare_self
  eq_of_compare {p q} h := by
    obtain ⟨b, s⟩ := p
    obtain ⟨c, t⟩ := q
    have h' : order ⟨b, s⟩ ⟨c, t⟩ = .eq := h
    simp only [order, compareLex, compareOn, Ordering.then_eq_eq, Std.compare_eq_iff_eq] at h'
    simp [h'.1, h'.2]

def isLE (p q : Point) : Bool := (compare p q).isLE

end Point

end Ownership
