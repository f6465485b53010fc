import Mathlib.Data.List.Forall2
import Ownership.Place.Overlap

/-!
# What is told apart is apart

A path is written before the function runs, and some of its indices are open until then. When it runs,
every step leads to one part of what stands before it. A path stands for all the ways it can be taken:

* `TakenStep`, `Path.Takes`: the steps as they are taken, and the ways a path can be taken;
* `Path.Parts`, `overlaps_eq_false_iff`: two paths are told apart by the first steps that differ;
* `Path.Parts.not_prefix`: however they are taken, neither leads into the other;
* `disjoint_sound`: the statement for places.
-/

namespace Ownership

/-! ## 1. Ways to take a path -/

/-- A step as it is taken: an index has come down to a position. One that was marked as known but has
    no position may stay without. -/
inductive TakenStep where
  | field (name : String)
  | element (position : Option Int)
  | deref
  deriving DecidableEq, Repr

/-- The position of the index is not known before the function runs. -/
def Index.isOpen (i : Index) : Bool := i.position?.isNone

/-- The step can be taken this way, where the indices in `free` take any position. -/
def Projection.Takes (free : Index → Bool) : Projection → TakenStep → Prop
  | .field f, t => t = .field f
  | .index i, t => if free i then ∃ n : Int, t = .element (some n) else t = .element i.value
  | .deref, t => t = .deref

/-- The path can be taken this way. -/
def Path.Takes (free : Index → Bool) (p : Path) (way : List TakenStep) : Prop :=
  List.Forall₂ (Projection.Takes free) p way

section Ways

variable {free : Index → Bool} {p c : Path} {s : Projection} {way : List TakenStep}

/-- The way has a step for each step of the path. -/
theorem Path.Takes.getElem? (h : Path.Takes free (c ++ s :: p) way) :
    ∃ t, way[c.length]? = some t ∧ s.Takes free t := by
  induction c generalizing way with
  | nil =>
    cases h with
    | cons ht _ => exact ⟨_, rfl, ht⟩
  | cons a c ih =>
    cases h with
    | cons _ hrest => exact ih hrest

end Ways

/-- Ways that differ in a step do not begin with one another. -/
theorem not_prefix_of_getElem? {v w : List TakenStep} {n : Nat} {x y : TakenStep}
    (hx : v[n]? = some x) (hy : w[n]? = some y) (hne : x ≠ y) : ¬ v <+: w := by
  intro hpre
  obtain ⟨hlt, rfl⟩ := List.getElem?_eq_some_iff.mp hx
  have hsame := List.prefix_iff_getElem?.mp hpre n hlt
  exact hne (Option.some.inj (hsame.symm.trans hy))

/-! ## 2. Steps -/

namespace Projection

theorem isApart_comm (s t : Projection) : s.isApart t = t.isApart s := by
  cases s with
  | deref => cases t <;> rfl
  | field f =>
    cases t with
    | field g => exact bne_comm
    | _ => rfl
  | index i =>
    cases t with
    | index j =>
      simp only [isApart]
      cases i.position? with
      | none => cases j.position? <;> rfl
      | some m =>
        cases j.position? with
        | none => rfl
        | some n => exact bne_comm
    | _ => rfl

theorem isApart_irrefl (s : Projection) : s.isApart s = false := by
  cases s with
  | deref => rfl
  | field f => simp [isApart]
  | index i =>
    simp only [isApart]
    cases i.position? with
    | none => rfl
    | some n => simp

/-- An index with a position has come down to it already. -/
theorem eq_element_of_takes {i : Index} {n : Int} (hi : i.position? = some n) {t : TakenStep}
    (ht : (Projection.index i).Takes Index.isOpen t) : t = .element (some n) := by
  have hopen : i.isOpen = false := by rw [Index.isOpen, hi, Option.isNone_some]
  have hvalue : i.value = some n := by
    unfold Index.position? at hi
    split at hi
    · exact hi
    · cases hi
  simp only [Takes, hopen, Bool.false_eq_true, if_false, hvalue] at ht
  exact ht

/-- Steps that are apart are never taken the same way. -/
theorem ne_of_isApart {s t : Projection} (h : s.isApart t = true) {x y : TakenStep}
    (hx : s.Takes Index.isOpen x) (hy : t.Takes Index.isOpen y) : x ≠ y := by
  unfold isApart at h
  split at h
  · cases hx
    cases hy
    intro he
    cases he
    exact bne_iff_ne.mp h rfl
  · split at h
    · rename_i m n hm hn
      rw [eq_element_of_takes hm hx, eq_element_of_takes hn hy]
      intro he
      cases he
      exact bne_iff_ne.mp h rfl
    · cases h
  · cases h

end Projection

/-! ## 3. Paths -/

namespace Path

/-- The paths go the same steps up to two that are apart. -/
def Parts (p q : Path) : Prop :=
  ∃ c s t p' q', p = c ++ s :: p' ∧ q = c ++ t :: q' ∧ Projection.isApart s t = true

theorem Parts.symm {p q : Path} (h : Parts p q) : Parts q p := by
  obtain ⟨c, s, t, p', q', hp, hq, hst⟩ := h
  exact ⟨c, t, s, q', p', hq, hp, s.isApart_comm t ▸ hst⟩

theorem Parts.append {p q : Path} (h : Parts p q) (p₁ q₁ : Path) : Parts (p ++ p₁) (q ++ q₁) := by
  obtain ⟨c, s, t, p', q', rfl, rfl, hst⟩ := h
  exact ⟨c, s, t, p' ++ p₁, q' ++ q₁, List.append_assoc .., List.append_assoc .., hst⟩

theorem Parts.cons {p q : Path} (h : Parts p q) (a : Projection) : Parts (a :: p) (a :: q) := by
  obtain ⟨c, s, t, p', q', rfl, rfl, hst⟩ := h
  exact ⟨a :: c, s, t, p', q', rfl, rfl, hst⟩

/-- Behind a step in common, paths part as what is left of them. -/
theorem parts_cons_iff {p q : Path} {a : Projection} : Parts (a :: p) (a :: q) ↔ Parts p q := by
  refine ⟨fun h => ?_, fun h => h.cons a⟩
  obtain ⟨c, s, t, p', q', hp, hq, hst⟩ := h
  cases c with
  | nil =>
    -- the common step itself would have to be apart from itself
    cases hp
    cases hq
    cases hst.symm.trans (Projection.isApart_irrefl a)
  | cons b c =>
    cases hp
    cases hq
    exact ⟨c, s, t, p', q', rfl, rfl, hst⟩

/-- **Paths are told apart by the first steps that differ.** -/
theorem overlaps_eq_false_iff {p q : Path} : overlaps p q = false ↔ Parts p q := by
  induction p generalizing q with
  | nil =>
    refine iff_of_false (by rw [overlaps]; exact Bool.true_eq_false.mp) fun h => ?_
    obtain ⟨c, s, t, p', q', hp, _, _⟩ := h
    exact absurd hp.symm (List.append_ne_nil_of_right_ne_nil c (List.cons_ne_nil s p'))
  | cons a p ih =>
    cases q with
    | nil =>
      refine iff_of_false Bool.true_eq_false.mp fun h => ?_
      obtain ⟨c, s, t, p', q', _, hq, _⟩ := h
      exact absurd hq.symm (List.append_ne_nil_of_right_ne_nil c (List.cons_ne_nil t q'))
    | cons b q =>
      rw [overlaps]
      by_cases hab : a = b
      · subst hab
        rw [if_pos rfl, ih, parts_cons_iff]
      · rw [if_neg hab, Bool.not_eq_false']
        refine ⟨fun h => ⟨[], a, b, p, q, rfl, rfl, h⟩, fun h => ?_⟩
        obtain ⟨c, s, t, p', q', hp, hq, hst⟩ := h
        cases c with
        | nil =>
          cases hp
          cases hq
          exact hst
        | cons x c =>
          cases hp
          cases hq
          exact absurd rfl hab

theorem overlaps_comm (p q : Path) : overlaps p q = overlaps q p := by
  refine Bool.eq_iff_iff.mpr (not_iff_not.mp ?_)
  rw [Bool.not_eq_true, Bool.not_eq_true, overlaps_eq_false_iff, overlaps_eq_false_iff]
  exact ⟨Parts.symm, Parts.symm⟩

/-- Paths that part lead to different storage, however they are taken: at the steps that are apart the
    two ways differ. -/
theorem Parts.not_prefix {p q : Path} (h : Parts p q) {v w : List TakenStep}
    (hv : Takes Index.isOpen p v) (hw : Takes Index.isOpen q w) : ¬ v <+: w := by
  obtain ⟨c, s, t, p', q', rfl, rfl, hst⟩ := h
  obtain ⟨x, hx, hsx⟩ := hv.getElem?
  obtain ⟨y, hy, hty⟩ := hw.getElem?
  exact not_prefix_of_getElem? hx hy (Projection.ne_of_isApart hst hsx hty)

end Path

/-! ## 4. Places -/

theorem Place.overlaps_comm (a b : Place) : a.overlaps b = b.overlaps a := by
  rw [overlaps, overlaps, Path.overlaps_comm, Bool.beq_comm]

theorem Place.overlaps_eq_false_iff {a b : Place} :
    a.overlaps b = false ↔ a.root ≠ b.root ∨ Path.Parts a.path b.path := by
  rw [overlaps, Bool.and_eq_false_iff, beq_eq_false_iff_ne, Path.overlaps_eq_false_iff]

/-- **Places that are told apart are apart, and so is all that they lead to.** The question has the same
    answer both ways round, and the answer is no exactly for different roots and for paths that part;
    if it is no for places of one root, no way to take one of them begins with a way to take the
    other; and it stays no whatever steps are added to either of them. -/
theorem disjoint_sound (a b : Place) :
    a.overlaps b = b.overlaps a ∧
      (a.overlaps b = false ↔ a.root ≠ b.root ∨ Path.Parts a.path b.path) ∧
      (a.overlaps b = false → a.root = b.root → ∀ v w, Path.Takes Index.isOpen a.path v →
        Path.Takes Index.isOpen b.path w → ¬ v <+: w ∧ ¬ w <+: v) ∧
      (a.overlaps b = false → ∀ p q : Path,
        Place.overlaps ⟨a.root, a.path ++ p⟩ ⟨b.root, b.path ++ q⟩ = false) := by
  refine ⟨Place.overlaps_comm a b, Place.overlaps_eq_false_iff, fun h hroot v w hv hw => ?_,
    fun h p q => ?_⟩
  · have hparts := (Place.overlaps_eq_false_iff.mp h).resolve_left fun hne => hne hroot
    exact ⟨hparts.not_prefix hv hw, hparts.symm.not_prefix hw hv⟩
  · exact Place.overlaps_eq_false_iff.mpr
      ((Place.overlaps_eq_false_iff.mp h).imp_right fun hparts => hparts.append p q)

/-- Two fields of one row, whose number is read from a variable. -/
def leftOfRow : Place :=
  ⟨⟨.localVar, "t"⟩, [.index { kind := .any, var := some "i" }, .field "left"]⟩

def rightOfRow : Place :=
  ⟨⟨.localVar, "t"⟩, [.index { kind := .any, var := some "i" }, .field "right"]⟩

/-- Whatever row it is, the two fields are apart, and so are their elements. -/
theorem disjoint_sound_row :
    leftOfRow.overlaps rightOfRow = false ∧ rightOfRow.overlaps leftOfRow = false ∧
      ¬ [TakenStep.element (some 3), .field "left"] <+: [.element (some 3), .field "right"] ∧
      Place.overlaps ⟨leftOfRow.root, leftOfRow.path ++ [.index { kind := .any }]⟩ rightOfRow = false := by
  obtain ⟨hcomm, _, hsound, hextend⟩ := disjoint_sound leftOfRow rightOfRow
  have hno : leftOfRow.overlaps rightOfRow = false := by decide
  have hleft : Path.Takes Index.isOpen leftOfRow.path [.element (some 3), .field "left"] :=
    .cons ⟨3, rfl⟩ (.cons rfl .nil)
  have hright : Path.Takes Index.isOpen rightOfRow.path [.element (some 3), .field "right"] :=
    .cons ⟨3, rfl⟩ (.cons rfl .nil)
  exact ⟨hno, hcomm ▸ hno, (hsound hno rfl _ _ hleft hright).1, hextend hno _ []⟩

end Ownership
