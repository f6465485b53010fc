import Std.Data.ExtTreeSet

/-!
# Places

A place names storage: a root (a declared variable of one of five kinds) and a path of projections
into it. The file fixes

* `Root`, `Projection`, `Path`, `Place` and the questions asked of a single place;
* a total order of projections, hence of paths, so that finite sets of paths (`PathSet`) have one
  representation each.
-/

namespace Ownership

open Std

/-! ## 1. Roots -/

/-- What a root is to its function. -/
inductive RootKind where
  | localVar
  | param
  | temp
  | result
  | globalVar
  deriving DecidableEq, Repr

/-- A root: the kind it is declared with and its name. -/
structure Root where
  kind : RootKind
  name : String
  deriving DecidableEq, Repr

/-- The root's storage outlives the call: it was there before and is there afterwards. -/
def Root.isExternal (r : Root) : Bool :=
  r.kind == .param || r.kind == .globalVar

/-! ## 2. Projections -/

/-- Whether the position of an index is known. -/
inductive IndexKind where
  | any
  | const
  deriving DecidableEq, Repr

/-- An index: a known position, or an unknown one that may be read from a variable. Every part is
    kept as given, also a position or variable that the kind makes no use of. -/
structure Index where
  kind : IndexKind
  value : Option Int := none
  var : Option String := none
  deriving DecidableEq, Repr

/-- The position of an index, where it is known. -/
def Index.position? (i : Index) : Option Int :=
  match i.kind with
  | .const => i.value
  | .any => none

/-- One step from a place to a part of it. -/
inductive Projection where
  | field (name : String)
  | index (i : Index)
  | deref
  deriving DecidableEq, Repr

def Projection.isDeref : Projection → Bool
  | .deref => true
  | _ => false

/-- The variable an index step reads. -/
def Projection.var? : Projection → Option String
  | .index i => i.var
  | _ => none

/-! ## 3. The order of projections -/

/-- A projection as a tuple of ordered parts: fields, indices of either kind, dereferences. -/
def Projection.key : Projection → Nat × String × Option Int × Option String
  | .field n => (0, n, none, none)
  | .index ⟨.any, v, x⟩ => (1, "", v, x)
  | .index ⟨.const, v, x⟩ => (2, "", v, x)
  | .deref => (3, "", none, none)

theorem Projection.key_injective {p q : Projection} (h : p.key = q.key) : p = q := by
  rcases p with _ | ⟨_ | _, _, _⟩ | _ <;> rcases q with _ | ⟨_ | _, _, _⟩ | _ <;> simp_all [key]

/-- Tuples of parts compare part by part, the first difference deciding. -/
abbrev Projection.compareKey :
    Nat × String × Option Int × Option String → Nat × String × Option Int × Option String → Ordering :=
  compareLex (compareOn (·.1)) (compareLex (compareOn (·.2.1))
    (compareLex (compareOn (·.2.2.1)) (compareOn (·.2.2.2))))

instance : Ord Projection where
  compare p q := Projection.compareKey p.key q.key

theorem Projection.compareKey_eq {a b : Nat × String × Option Int × Option String}
    (h : compareKey a b = .eq) : a = b := by
  obtain ⟨a1, a2, a3, a4⟩ := a
  obtain ⟨b1, b2, b3, b4⟩ := b
  simp only [compareKey, compareLex, compareOn, Ordering.then_eq_eq, Std.compare_eq_iff_eq] at h
  obtain ⟨rfl, rfl, rfl, rfl⟩ := h
  rfl

instance : TransOrd Projection where
  eq_swap {p q} :=
    show Projection.compareKey p.key q.key = (Projection.compareKey q.key p.key).swap from
      OrientedCmp.eq_swap
  isLE_trans {p q r} hpq hqr :=
    show (Projection.compareKey p.key r.key).isLE from
      TransCmp.isLE_trans (show (Projection.compareKey p.key q.key).isLE from hpq) hqr

instance : LawfulEqOrd Projection where
  compare_self {p} := show Projection.compareKey p.key p.key = .eq from ReflCmp.compare_self
  eq_of_compare h := Projection.key_injective (Projection.compareKey_eq h)

/-- A path from a root, outermost step first. -/
abbrev Path := List Projection

/-- A finite set of paths; two sets with the same members are equal. -/
abbrev PathSet := ExtTreeSet Path

/-! ## 4. Places -/

/-- A storage location: a root and the path into it. -/
structure Place where
  root : Root
  path : Path := []
  deriving DecidableEq, Repr

namespace Place

def name (p : Place) : String := p.root.name

/-- The place of the whole root. -/
def whole (p : Place) : Place := ⟨p.root, []⟩

def isWhole (p : Place) : Bool := p.path.isEmpty

def hasDeref (p : Place) : Bool := p.path.any Projection.isDeref

/-- The variables read to evaluate the index steps, in order. -/
def indexVars (p : Place) : List String := p.path.filterMap Projection.var?

/-- The place one step further in. -/
def extend (p : Place) (s : Projection) : Place := ⟨p.root, p.path ++ [s]⟩

/-- The steps before the first dereference. -/
def directPath (p : Place) : Path := p.path.takeWhile fun s => !s.isDeref

/-- The reference that the first dereference goes through, or the place itself without one. -/
def carrier (p : Place) : Place := ⟨p.root, p.directPath⟩

end Place

/-- The step an element access takes: a known position for a number, else an unknown one with the
    variable it is read from. -/
def Projection.element : Option (Int ⊕ String) → Projection
  | some (.inl n) => .index { kind := .const, value := some n }
  | some (.inr x) => .index { kind := .any, var := some x }
  | none => .index { kind := .any }

end Ownership
