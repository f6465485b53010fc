import Ownership.Proofs.Moves.Lattice
import Ownership.Proofs.Place.Disjoint

/-!
# What a write puts back

A write takes the gone paths at and under the written path off the state. Steps are compared as they
are written, so an index that is not known counts as equal to itself, although it may be taken to a
different position each time. What was taken out at one of them is then not certain to be what the
write put back:

* `MoveState.Heals`, `MoveState.heals_iff`: the gone paths that a write takes off;
* `Path.wayAt`: every path can be taken, with all its unknown indices at one position;
* `healed_exactly`: what is taken off is certain to be put back if and only if the written path has no
  unknown index.
-/

namespace Ownership

open Std (ExtTreeSet)

/-- The index is written as unknown. -/
def Index.isAny (i : Index) : Bool := i.kind == .any

/-! ## 1. Gone paths that are taken off -/

namespace MoveState

/-- The write to `p` takes `m` off the gone paths. -/
def Heals (s : MoveState) (p m : Path) : Prop := m ∈ s.gone ∧ m ∉ (s.afterAssign p).gone

theorem not_mem_gone_owned (m : Path) : m ∉ MoveState.owned.gone := ExtTreeSet.not_mem_empty

theorem mem_gone_afterAssign_partly {g : PathSet} {p m : Path} (hp : p ≠ []) :
    m ∈ ((MoveState.partly g).afterAssign p).gone ↔ m ∈ g ∧ ¬ p <+: m := by
  rw [afterAssign_partly hp, ← mem_clear]
  split_ifs with he
  · refine iff_of_false (not_mem_gone_owned m) ?_
    rw [ExtTreeSet.isEmpty_iff.mp he]
    exact ExtTreeSet.not_mem_empty
  · exact Iff.rfl

/-- **A write takes off what is gone at or under the written path**, except that a part put into a value
    that is gone as a whole takes nothing off. -/
theorem heals_iff {s : MoveState} {p m : Path} :
    s.Heals p m ↔ m ∈ s.gone ∧ p <+: m ∧ (s = .moved → p = []) := by
  refine and_congr_right fun hm => ?_
  by_cases hp : p = []
  · subst hp
    exact iff_of_true (not_mem_gone_owned m) ⟨List.nil_prefix, fun _ => rfl⟩
  cases s with
  | owned => exact absurd hm (not_mem_gone_owned m)
  | moved =>
    rw [afterAssign_moved hp]
    exact iff_of_false (fun h => h hm) fun h => hp (h.2 rfl)
  | partly g =>
    have hg : m ∈ g := hm
    rw [mem_gone_afterAssign_partly hp]
    simp [hg]

end MoveState

/-! ## 2. Ways through unknown indices -/

section Ways

variable {free : Index → Bool} {p m : Path}

/-- The step with an index of `free` at position `n`. -/
def Projection.stepAt (free : Index → Bool) (n : Int) : Projection → TakenStep
  | .field f => .field f
  | .index i => .element (if free i then some n else i.value)
  | .deref => .deref

/-- The path with all its indices of `free` at position `n`. -/
def Path.wayAt (free : Index → Bool) (n : Int) (p : Path) : List TakenStep :=
  p.map (Projection.stepAt free n)

theorem Projection.takes_stepAt (n : Int) (s : Projection) : s.Takes free (s.stepAt free n) := by
  cases s with
  | field f => rfl
  | deref => rfl
  | index i =>
    by_cases h : free i = true
    · simp only [Takes, stepAt, h, if_true]
      exact ⟨n, rfl⟩
    · simp only [Takes, stepAt, h, Bool.false_eq_true, if_false]

/-- Every path can be taken, its free indices at any one position. -/
theorem Path.takes_wayAt (n : Int) (p : Path) : Path.Takes free p (Path.wayAt free n p) := by
  rw [Takes, wayAt, List.forall₂_map_right_iff]
  exact List.forall₂_same.mpr fun s _ => s.takes_stepAt n

/-- A path without free indices can be taken in one way only. -/
theorem Path.Takes.unique (h : ∀ i, .index i ∈ p → free i = false) {v w : List TakenStep}
    (hv : Path.Takes free p v) (hw : Path.Takes free p w) : v = w := by
  induction p generalizing v w with
  | nil =>
    cases hv
    cases hw
    rfl
  | cons s p ih =>
    cases hv with
    | @cons _ x _ v hx hv =>
      cases hw with
      | @cons _ y _ w hy hw =>
        have hrest : v = w := ih (fun i hi => h i (List.mem_cons_of_mem _ hi)) hv hw
        have hfirst : x = y := by
          cases s with
          | field f => exact hx.trans hy.symm
          | deref => exact hx.trans hy.symm
          | index i =>
            simp only [Projection.Takes, h i List.mem_cons_self, Bool.false_eq_true, if_false] at hx hy
            exact hx.trans hy.symm
        rw [hfirst, hrest]

/-- A way to take a path begins with a way to take what the path begins with. -/
theorem Path.Takes.take (hpre : p <+: m) {w : List TakenStep} (hw : Path.Takes free m w) :
    Path.Takes free p (w.take p.length) := by
  have htake := List.forall₂_take p.length hw
  rwa [← List.prefix_iff_eq_take.mp hpre] at htake

/-- Two paths that begin with the same free index are taken apart by two positions. -/
theorem Path.exists_takes_not_prefix {i : Index} (hi : .index i ∈ p) (hfree : free i = true)
    (hpre : p <+: m) :
    ∃ v w, Path.Takes free p v ∧ Path.Takes free m w ∧ ¬ v <+: w := by
  refine ⟨_, _, p.takes_wayAt 0, m.takes_wayAt 1, ?_⟩
  obtain ⟨c, d, rfl⟩ := List.append_of_mem hi
  obtain ⟨more, rfl⟩ := hpre
  have hzero : (Path.wayAt free 0 (c ++ .index i :: d))[c.length]? = some (.element (some 0)) := by
    simp [wayAt, Projection.stepAt, hfree]
  have hone : (Path.wayAt free 1 (c ++ .index i :: d ++ more))[c.length]? = some (.element (some 1)) := by
    simp [wayAt, Projection.stepAt, hfree]
  exact not_prefix_of_getElem? hzero hone (by decide)

end Ways

/-! ## 3. What is certain to be put back -/

/-- **What a write takes off is certain to be put back exactly if the written path has no unknown
    index.** Taken off is what is gone at or under the written path, step by step as written. However
    it is taken, it lies under some way to take the written path; it lies under all of them if and
    only if the written path has no unknown index. -/
theorem healed_exactly (s : MoveState) (p m : Path) :
    (s.Heals p m ↔ m ∈ s.gone ∧ p <+: m ∧ (s = .moved → p = [])) ∧
      (s.Heals p m → ∀ w, Path.Takes Index.isAny m w → ∃ v, Path.Takes Index.isAny p v ∧ v <+: w) ∧
      (s.Heals p m →
        ((∀ v w, Path.Takes Index.isAny p v → Path.Takes Index.isAny m w → v <+: w) ↔
          ∀ i, .index i ∈ p → i.isAny = false)) := by
  refine ⟨MoveState.heals_iff, fun h w hw => ?_, fun h => ⟨fun hall i hi => ?_, fun hnone v w hv hw => ?_⟩⟩
  · exact ⟨_, hw.take (MoveState.heals_iff.mp h).2.1, List.take_prefix _ _⟩
  · by_contra hany
    obtain ⟨v, w, hv, hw, hnot⟩ := Path.exists_takes_not_prefix hi
      (Bool.not_eq_false _ ▸ hany) (MoveState.heals_iff.mp h).2.1
    exact hnot (hall v w hv hw)
  · rw [hv.unique hnone (hw.take (MoveState.heals_iff.mp h).2.1)]
    exact List.take_prefix _ _

/-- A struct of which a part of the field `a` is gone gets a new `a`. -/
theorem healed_exactly_field :
    (MoveState.partly ((∅ : PathSet).insert [.field "a", .field "x"])).Heals [.field "a"]
        [.field "a", .field "x"] ∧
      ∀ v w, Path.Takes Index.isAny [.field "a"] v →
        Path.Takes Index.isAny [.field "a", .field "x"] w → v <+: w := by
  obtain ⟨hiff, _, hcertain⟩ := healed_exactly
    (.partly ((∅ : PathSet).insert [.field "a", .field "x"])) [.field "a"] [.field "a", .field "x"]
  have hheals := hiff.mpr
    ⟨ExtTreeSet.mem_insert_self, ⟨[.field "x"], rfl⟩, fun h => MoveState.noConfusion h⟩
  refine ⟨hheals, (hcertain hheals).mpr fun i hi => ?_⟩
  cases List.mem_singleton.mp hi

/-- Some element of an array, no matter which. -/
def someElement : Path := [.index { kind := .any }]

/-- An array of which some element is gone gets a new element somewhere. Nothing is missing from it any
    more, although the element at 0 may be gone and the one at 1 may be new. -/
theorem some_element_healed :
    (MoveState.partly ((∅ : PathSet).insert someElement)).Heals someElement someElement ∧
      ((MoveState.partly ((∅ : PathSet).insert someElement)).afterAssign someElement).missing?
        [.index { kind := .const, value := some 0 }] = none ∧
      Path.Takes Index.isAny someElement [.element (some 0)] ∧
      Path.Takes Index.isAny someElement [.element (some 1)] ∧
      ¬ [TakenStep.element (some 1)] <+: [.element (some 0)] := by
  refine ⟨MoveState.heals_iff.mpr ⟨ExtTreeSet.mem_insert_self, List.prefix_rfl, fun h => ?_⟩, ?_,
    .cons ⟨0, rfl⟩ .nil, .cons ⟨1, rfl⟩ .nil, by decide⟩
  · cases h
  · decide +kernel

end Ownership
