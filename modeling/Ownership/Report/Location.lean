import Ownership.Function.Point

/-!
# Where a finding is

A location is written like a point of a function but stands for itself: whoever hands in findings may
place them anywhere, also where no function has a point. Locations are ordered like points.
-/

namespace Ownership

open Std

structure Location where
  block : Int
  stmt : Int
  deriving DecidableEq, Repr

/-- A point as a location. -/
def Point.location (p : Point) : Location := ⟨p.block, p.stmt⟩

namespace Location

def render (l : Location) : String := s!"bb{l.block}[{l.stmt}]"

def toJson (l : Location) : Json := .arr [.int l.block, .int l.stmt]

/-- By block, then by position. -/
abbrev order : Location → Location → Ordering :=
  compareLex (compareOn Location.block) (compareOn Location.stmt)

instance : Ord Location where
  compare := order

instance : TransOrd Location := inferInstanceAs (TransCmp order)

instance : LawfulEqOrd Location where
  compare_self {l} := show order l l = .eq from ReflCmp.compare_self
  eq_of_compare {l m} h := by
    obtain ⟨b, s⟩ := l
    obtain ⟨c, t⟩ := m
    have h' : order ⟨b, s⟩ ⟨c, t⟩ = .eq := h
    simp only [order, compareLex, compareOn, Ordering.then_eq_eq, Std.compare_eq_iff_eq] at h'
    simp [h'.1, h'.2]

end Location

end Ownership
