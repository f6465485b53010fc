import Ownership.Proofs.Moves.Stops

/-!
# The laws of ownership states

A normal state is told from its outcomes. Joins are unions of outcomes, and moving and writing act on
outcomes one by one, so that the laws of joins are those of unions. They carry over to maps: a root
that is not listed was never set, which is a state like any other.

* `MoveState.Normal.ext`: normal states with the same outcomes are equal;
* `MoveState.Pointwise.map_join`: what acts on outcomes one by one distributes over joins;
* `MoveMap.Joined`: what several maps join to, in some order and grouping;
* `lattice_laws`: the laws of states, and that order and grouping of a join of maps do not matter.
-/

namespace Ownership

open Std (ExtTreeMap)
open scoped List

/-! ## 1. States -/

namespace MoveState

variable {a b c : MoveState}

/-- **Normal states with the same outcomes are equal.** -/
theorem Normal.ext (ha : a.Normal) (hb : b.Normal) (h : ∀ o, a.Outcome o ↔ b.Outcome o) : a = b :=
  @eq_of_outcomes Set.univ a b ha hb (fun _ _ => trivial) (fun _ _ => trivial) (h none)
    fun r _ => h (some r)

theorem join_self (a : MoveState) : a.join a = a := if_pos rfl

theorem Normal.join_comm (ha : a.Normal) (hb : b.Normal) : a.join b = b.join a := by
  refine ha.join.ext hb.join fun o => ?_
  rw [outcome_join, outcome_join, or_comm]

theorem Normal.join_assoc (ha : a.Normal) : (a.join b).join c = a.join (b.join c) := by
  refine ha.join.join.ext ha.join fun o => ?_
  simp only [outcome_join, or_assoc]

/-- What acts on outcomes one by one, and keeps states normal, distributes over joins. -/
theorem Pointwise.map_join {g : MoveState → MoveState} (hg : Pointwise g)
    (hnormal : ∀ {s : MoveState}, s.Normal → (g s).Normal) (ha : a.Normal) :
    g (a.join b) = (g a).join (g b) := by
  obtain ⟨gen, take, h⟩ := hg
  refine (hnormal ha.join).ext (hnormal ha).join fun o => ?_
  simp only [outcome_join, h, or_and_right, exists_or]
  exact or_or_distrib_left

/-- A read finds something missing in a join if it does in one of the states. -/
theorem missing?_join (p : Path) :
    (a.join b).missing? p ≠ none ↔ a.missing? p ≠ none ∨ b.missing? p ≠ none := by
  simp only [missing?_ne_none, gone_overlaps_iff, outcome_join, or_and_right, exists_or]

end MoveState

/-! ## 2. Maps -/

namespace MoveMap

/-- Every root is in a normal state, those that are not listed included. -/
def Normal (m : MoveMap) : Prop := ∀ x, (m.stateOf x).Normal

theorem normal_empty : Normal (∅ : MoveMap) := by
  intro x
  rw [stateOf_of_not_mem ExtTreeMap.not_mem_empty]
  trivial

theorem Normal.insert {m : MoveMap} (hm : m.Normal) (n : String) {s : MoveState} (hs : s.Normal) :
    Normal (m.insert n s) := by
  intro x
  by_cases hx : x = n
  · rw [hx, stateOf_insert_self]
    exact hs
  · rw [stateOf_insert_ne _ _ hx]
    exact hm x

/-- What several maps join to, in some order and grouping. -/
inductive Joined : List MoveMap → MoveMap → Prop
  | one (m : MoveMap) : Joined [m] m
  | both {ms ns : List MoveMap} {a b : MoveMap} (ha : Joined ms a) (hb : Joined ns b) :
      Joined (ms ++ ns) (a.join b)
  | reorder {ms ns : List MoveMap} {a : MoveMap} (hp : ms ~ ns) (ha : Joined ms a) : Joined ns a

theorem mem_join_iff {a b : MoveMap} {x : String} : x ∈ a.join b ↔ x ∈ a ∨ x ∈ b := by
  rw [ExtTreeMap.mem_iff_isSome_getElem?, getElem?_join]
  split_ifs with h <;> simp [h]

namespace Joined

variable {ms : List MoveMap} {a b : MoveMap}

/-- The roots that are listed are those of the maps. -/
theorem mem_iff (h : Joined ms a) {x : String} : x ∈ a ↔ ∃ m ∈ ms, x ∈ m := by
  induction h with
  | one m => simp
  | both _ _ iha ihb => simp only [mem_join_iff, iha, ihb, List.mem_append, or_and_right, exists_or]
  | reorder hp _ ih => simp only [ih, hp.mem_iff]

/-- The outcomes are those of the maps. -/
theorem outcome_iff (h : Joined ms a) {x : String} {o : Option Path} :
    (a.stateOf x).Outcome o ↔ ∃ m ∈ ms, (m.stateOf x).Outcome o := by
  induction h with
  | one m => simp
  | both _ _ iha ihb =>
    simp only [stateOf_join, MoveState.outcome_join, iha, ihb, List.mem_append, or_and_right, exists_or]
  | reorder hp _ ih => simp only [ih, hp.mem_iff]

theorem normal (h : Joined ms a) (hms : ∀ m ∈ ms, m.Normal) : a.Normal := by
  induction h with
  | one m => exact hms m List.mem_cons_self
  | both _ _ iha _ =>
    intro x
    rw [stateOf_join]
    exact (iha (fun m hm => hms m (List.mem_append_left _ hm)) x).join
  | reorder hp _ ih => exact ih fun m hm => hms m (hp.mem_iff.mp hm)

/-- **Order and grouping do not matter.** -/
theorem unique (ha : Joined ms a) (hb : Joined ms b) (hms : ∀ m ∈ ms, m.Normal) : a = b := by
  refine ExtTreeMap.ext_getElem? fun x => ?_
  have hmem : x ∈ a ↔ x ∈ b := ha.mem_iff.trans hb.mem_iff.symm
  have hstate : a.stateOf x = b.stateOf x := (ha.normal hms x).ext (hb.normal hms x) fun o =>
    ha.outcome_iff.trans hb.outcome_iff.symm
  by_cases hx : x ∈ a
  · rw [getElem?_eq_getD_of_mem hx .moved, getElem?_eq_getD_of_mem (hmem.mp hx) .moved]
    exact congrArg some hstate
  · rw [ExtTreeMap.getElem?_eq_none hx, ExtTreeMap.getElem?_eq_none (hmem.not.mp hx)]

/-- A pass joins the maps it meets from left to right. -/
theorem foldl (h : Joined ms a) (ns : List MoveMap) : Joined (ms ++ ns) (ns.foldl MoveMap.join a) := by
  induction ns generalizing ms a with
  | nil => rwa [List.append_nil]
  | cons n ns ih => simpa using ih (h.both (.one n))

end Joined

end MoveMap

/-! ## 3. The laws -/

/-- **The laws of ownership states.** Joining, moving and writing keep states normal; on normal states,
    joining is commutative, associative and idempotent, moving and writing distribute over it, and a
    read finds something missing in a join if it does in one of the states. So normal maps join to one
    map, whatever the order and grouping, and it is the one that they join to from left to right. -/
theorem lattice_laws :
    (∀ (a b : MoveState) (p : Path), a.Normal → b.Normal →
      (a.join b).Normal ∧ (a.afterMove p).Normal ∧ (a.afterAssign p).Normal) ∧
    (∀ a b : MoveState, a.Normal → b.Normal → a.join b = b.join a) ∧
    (∀ a b c : MoveState, a.Normal → b.Normal → c.Normal → (a.join b).join c = a.join (b.join c)) ∧
    (∀ a : MoveState, a.Normal → a.join a = a) ∧
    (∀ (a b : MoveState) (p : Path), a.Normal → b.Normal →
      (a.join b).afterMove p = (a.afterMove p).join (b.afterMove p) ∧
      (a.join b).afterAssign p = (a.afterAssign p).join (b.afterAssign p)) ∧
    (∀ (a b : MoveState) (p : Path), a.Normal → b.Normal →
      ((a.join b).missing? p ≠ none ↔ a.missing? p ≠ none ∨ b.missing? p ≠ none)) ∧
    (∀ (ms : List MoveMap) (x y : MoveMap), (∀ m ∈ ms, m.Normal) →
      MoveMap.Joined ms x → MoveMap.Joined ms y → x = y) ∧
    (∀ (m : MoveMap) (ms : List MoveMap), MoveMap.Joined (m :: ms) (ms.foldl MoveMap.join m)) := by
  refine ⟨fun a b p ha _ => ⟨ha.join, .afterMove p, ha.afterAssign p⟩, fun a b ha hb => ha.join_comm hb,
    fun a b c ha _ _ => ha.join_assoc, fun a _ => a.join_self, fun a b p ha _ => ⟨?_, ?_⟩,
    fun a b p _ _ => MoveState.missing?_join p, fun ms x y hms hx hy => hx.unique hy hms,
    fun m ms => (MoveMap.Joined.one m).foldl ms⟩
  · exact (MoveState.afterMove_pointwise p).map_join (fun _ => .afterMove p) ha
  · exact (MoveState.afterAssign_pointwise p).map_join (fun hs => hs.afterAssign p) ha

/-- The field `f` was moved out. -/
def fieldGone : MoveState := MoveState.owned.afterMove [.field "f"]

/-- A root that is there, in parts, or not set on one of three ways: the laws hold at these states, and
    the three maps join to one map. -/
theorem lattice_laws_fieldGone :
    fieldGone.Normal ∧ fieldGone.join .moved = MoveState.moved.join fieldGone ∧
    (fieldGone.join .moved).join .owned = fieldGone.join (MoveState.moved.join .owned) ∧
    (fieldGone.join .moved).afterAssign [.field "f"] =
      (fieldGone.afterAssign [.field "f"]).join (MoveState.moved.afterAssign [.field "f"]) ∧
    [∅, (∅ : MoveMap).insert "v" fieldGone].foldl MoveMap.join ((∅ : MoveMap).insert "v" .owned) =
      MoveMap.join (MoveMap.join ∅ ((∅ : MoveMap).insert "v" .owned))
        ((∅ : MoveMap).insert "v" fieldGone) := by
  obtain ⟨_, hcomm, hassoc, _, hdistrib, _, hjoined, hleft⟩ := lattice_laws
  have hgone : fieldGone.Normal := .afterMove _
  refine ⟨hgone, hcomm _ _ hgone trivial, hassoc _ _ _ hgone trivial trivial,
    (hdistrib fieldGone .moved _ hgone trivial).2, hjoined _ _ _ ?_ (hleft _ _) ?_⟩
  · intro m hm
    rcases List.mem_cons.mp hm with rfl | hm
    · exact MoveMap.normal_empty.insert "v" trivial
    · rcases List.mem_pair.mp hm with rfl | rfl
      · exact MoveMap.normal_empty
      · exact MoveMap.normal_empty.insert "v" hgone
  · exact (((MoveMap.Joined.one ∅).both (.one _)).both (.one _)).reorder (.swap _ _ _)

end Ownership
