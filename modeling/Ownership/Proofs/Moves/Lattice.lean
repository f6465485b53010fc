import Mathlib.Data.Set.Lattice
import Ownership.Moves.State
import Ownership.Proofs.Collections

/-!
# Ownership states as sets of outcomes

A state stands for what may have become of a value along several ways. Read as a set of outcomes, a
join is a union and every change of a state acts on the outcomes one by one:

* `MoveState.Outcome`: what may have become of the value or of a part of it;
* `outcome_join`, `outcome_afterMove`, `outcome_afterAssign`: the operations on outcomes;
* `MoveState.Normal`, `Normal.join`, `Normal.afterMove`, `Normal.afterAssign`: the states that occur,
  whose gone paths are a nonempty set of paths none of which extends another;
* `eq_owned_of_union`, `eq_moved_of_union`, `mem_gone_of_union`: a state that has the outcomes of a
  family of states, told from the members of the family;
* `missing?_ne_none`: a read finds something missing if a gone path overlaps what is read.
-/

namespace Ownership

open Std (ExtTreeSet ExtTreeMap LawfulEqOrd)

namespace MoveState

/-! ## 1. Outcomes -/

/-- The path or one above it is in the set. -/
def Under (s : PathSet) (r : Path) : Prop := ∃ q ∈ s, q <+: r

/-- What may have become of the value: `none`, it is there, whole or in part; `some r`, its part at
    `r` is gone. -/
def Outcome (s : MoveState) : Option Path → Prop
  | none => s ≠ .moved
  | some r => Under s.gone r

theorem under_moved (r : Path) : Under MoveState.moved.gone r :=
  ⟨[], ExtTreeSet.mem_insert_self, List.nil_prefix⟩

theorem not_under_owned (r : Path) : ¬ Under MoveState.owned.gone r := by
  intro h
  obtain ⟨q, hq, _⟩ := h
  exact ExtTreeSet.not_mem_empty hq

theorem under_union {s t : PathSet} {r : Path} : Under (s ∪ t) r ↔ Under s r ∨ Under t r := by
  simp only [Under, ExtTreeSet.mem_union_iff, or_and_right, exists_or]

/-! ## 2. Sets of paths -/

theorem mem_minimize {s : PathSet} {p : Path} :
    p ∈ minimize s ↔ p ∈ s ∧ ∀ q ∈ s, q <+: p → q = p := by
  rw [minimize, mem_filter_iff]
  refine and_congr_right fun _ => ?_
  simp only [Bool.not_eq_true', List.any_eq_false, Bool.and_eq_true, bne_iff_ne, ne_eq,
    List.isPrefixOf_iff_prefix, ExtTreeSet.mem_toList, not_and]
  exact forall₂_congr fun q _ => ⟨fun h hp => by_contra fun hne => h hne hp, fun h hne hp => hne (h hp)⟩

/-- Leaving out what extends another path changes nothing above the paths. -/
theorem under_minimize {s : PathSet} {r : Path} : Under (minimize s) r ↔ Under s r := by
  constructor
  · intro h
    obtain ⟨q, hq, hr⟩ := h
    exact ⟨q, (mem_minimize.mp hq).1, hr⟩
  · intro h
    obtain ⟨q, hq, hr⟩ := h
    -- the shortest of the paths above `r` extends no other
    induction hn : q.length using Nat.strong_induction_on generalizing q with
    | _ n ih =>
      by_cases hmin : ∀ q' ∈ s, q' <+: q → q' = q
      · exact ⟨q, mem_minimize.mpr ⟨hq, hmin⟩, hr⟩
      · push Not at hmin
        obtain ⟨q', hq', hpre, hne⟩ := hmin
        have hlt : q'.length < n :=
          hn ▸ lt_of_le_of_ne hpre.length_le fun e => hne (hpre.eq_of_length e)
        exact ih q'.length hlt q' hq' (hpre.trans hr) rfl

theorem mem_clear {s : PathSet} {p q : Path} : q ∈ clear p s ↔ q ∈ s ∧ ¬ p <+: q := by
  rw [clear, mem_filter_iff]
  simp only [Bool.not_eq_true', Bool.eq_false_iff, ne_eq, List.isPrefixOf_iff_prefix]

theorem under_clear_insert {s : PathSet} {p r : Path} :
    Under ((clear p s).insert p) r ↔ Under s r ∨ p <+: r := by
  constructor
  · intro h
    obtain ⟨q, hq, hr⟩ := h
    rcases ExtTreeSet.mem_insert.mp hq with e | hq
    · cases LawfulEqOrd.eq_of_compare e
      exact Or.inr hr
    · exact Or.inl ⟨q, (mem_clear.mp hq).1, hr⟩
  · intro h
    rcases h with ⟨q, hq, hr⟩ | hr
    · by_cases hpq : p <+: q
      · exact ⟨p, ExtTreeSet.mem_insert_self, hpq.trans hr⟩
      · exact ⟨q, ExtTreeSet.mem_insert.mpr (Or.inr (mem_clear.mpr ⟨hq, hpq⟩)), hr⟩
    · exact ⟨p, ExtTreeSet.mem_insert_self, hr⟩

/-- What stays gone when `p` is written: the parts under a gone path that is not at or under `p`. -/
theorem under_clear {s : PathSet} {p r : Path} :
    Under (clear p s) r ↔ ∃ r', Under s r' ∧ ¬ p <+: r' ∧ r' <+: r := by
  constructor
  · intro h
    obtain ⟨q, hq, hr⟩ := h
    obtain ⟨hq, hpq⟩ := mem_clear.mp hq
    exact ⟨q, ⟨q, hq, List.prefix_rfl⟩, hpq, hr⟩
  · intro h
    obtain ⟨r', ⟨q, hq, hr'⟩, hp, hr⟩ := h
    exact ⟨q, mem_clear.mpr ⟨hq, fun hpq => hp (hpq.trans hr')⟩, hr'.trans hr⟩

theorem isEmpty_iff {s : PathSet} : s.isEmpty = true ↔ ∀ r, ¬ Under s r := by
  rw [ExtTreeSet.isEmpty_iff]
  constructor
  · rintro rfl
    exact not_under_owned
  · intro h
    refine ExtTreeSet.ext_mem fun q => ⟨fun hq => ?_, fun hq => ?_⟩
    · exact absurd ⟨q, hq, List.prefix_rfl⟩ (h q)
    · exact absurd hq ExtTreeSet.not_mem_empty

/-! ## 3. The operations on outcomes -/

theorem ne_moved_of_not_under {s : MoveState} {r : Path} (h : ¬ Under s.gone r) : s ≠ .moved := by
  rintro rfl
  exact h (under_moved r)

theorem join_of_ne {a b : MoveState} (h : a ≠ b) :
    a.join b = if (a.gone ∪ b.gone).isEmpty then .owned else .partly (minimize (a.gone ∪ b.gone)) :=
  if_neg h

theorem afterMove_of_ne {p : Path} (hp : p ≠ []) {s : MoveState} (hs : s ≠ .moved) :
    s.afterMove p = .partly (minimize ((clear p s.gone).insert p)) := by
  have hpe := List.isEmpty_eq_false_iff.mpr hp
  cases s with
  | moved => exact absurd rfl hs
  | owned => simp only [afterMove, hpe, Bool.false_eq_true, if_false]
  | partly g => simp only [afterMove, hpe, Bool.false_eq_true, if_false]

theorem afterMove_moved (p : Path) : MoveState.moved.afterMove p = .moved := by
  rw [afterMove, ite_self]

theorem afterAssign_partly {p : Path} (hp : p ≠ []) (g : PathSet) :
    (MoveState.partly g).afterAssign p = if (clear p g).isEmpty then .owned else .partly (clear p g) := by
  rw [afterAssign, List.isEmpty_eq_false_iff.mpr hp]
  rfl

theorem afterAssign_owned (p : Path) : MoveState.owned.afterAssign p = .owned := by
  simp only [afterAssign, ite_self]

theorem afterAssign_moved {p : Path} (hp : p ≠ []) : MoveState.moved.afterAssign p = .moved := by
  simp only [afterAssign, List.isEmpty_eq_false_iff.mpr hp, Bool.false_eq_true, if_false]

/-- **A join has the outcomes of both states.** -/
theorem outcome_join (a b : MoveState) (o : Option Path) :
    (a.join b).Outcome o ↔ a.Outcome o ∨ b.Outcome o := by
  by_cases hab : a = b
  · rw [join, if_pos hab, hab, or_self]
  rw [join_of_ne hab]
  split_ifs with hu
  · have hnot : ∀ r, ¬ Under a.gone r ∧ ¬ Under b.gone r := fun r =>
      not_or.mp (under_union.not.mp (isEmpty_iff.mp hu r))
    cases o with
    | none => exact iff_of_true (fun h => nomatch h) (Or.inl (ne_moved_of_not_under (hnot []).1))
    | some r => exact iff_of_false (not_under_owned r) (not_or.mpr (hnot r))
  · cases o with
    | none =>
      refine iff_of_true (fun h => nomatch h) ?_
      by_contra hc
      obtain ⟨ha, hb⟩ := not_or.mp hc
      exact hab ((not_not.mp ha).trans (not_not.mp hb).symm)
    | some r => exact under_minimize.trans under_union

theorem outcome_afterMove_nil (s : MoveState) (o : Option Path) :
    (s.afterMove []).Outcome o ↔ o ≠ none := by
  cases o with
  | none => exact iff_of_false (fun h => h rfl) (fun h => h rfl)
  | some r => exact iff_of_true (under_moved r) (Option.some_ne_none r)

/-- Moving a part out adds that part, and what is under it, to what may be gone. -/
theorem outcome_afterMove {p : Path} (hp : p ≠ []) (s : MoveState) (o : Option Path) :
    (s.afterMove p).Outcome o ↔ s.Outcome o ∨ ∃ r, o = some r ∧ p <+: r := by
  by_cases hs : s = .moved
  · rw [hs, afterMove_moved]
    refine ⟨Or.inl, ?_⟩
    intro hx
    rcases hx with h | ⟨r, rfl, _⟩
    · exact h
    · exact under_moved r
  · rw [afterMove_of_ne hp hs]
    cases o with
    | none => exact iff_of_true (fun h => nomatch h) (Or.inl hs)
    | some r =>
      refine (under_minimize.trans under_clear_insert).trans (or_congr_right ?_)
      simp

theorem outcome_afterAssign_nil (s : MoveState) (o : Option Path) :
    (s.afterAssign []).Outcome o ↔ o = none := by
  cases o with
  | none => exact iff_of_true (fun h => nomatch h) rfl
  | some r => exact iff_of_false (not_under_owned r) (Option.some_ne_none r)

theorem afterAssign_eq_moved {p : Path} (hp : p ≠ []) {s : MoveState} :
    s.afterAssign p = .moved ↔ s = .moved := by
  cases s with
  | owned => rw [afterAssign_owned]
  | moved => rw [afterAssign_moved hp]
  | partly g =>
    rw [afterAssign_partly hp]
    split_ifs <;> simp

theorem under_afterAssign {p : Path} (hp : p ≠ []) (s : MoveState) (r : Path) :
    Under (s.afterAssign p).gone r ↔ Under (clear p s.gone) r := by
  cases s with
  | owned =>
    rw [afterAssign_owned, under_clear]
    exact iff_of_false (not_under_owned r) fun ⟨r', h, _⟩ => not_under_owned r' h
  | moved =>
    rw [afterAssign_moved hp, under_clear]
    exact iff_of_true (under_moved r)
      ⟨[], under_moved [], fun h => hp (List.prefix_nil.mp h), List.nil_prefix⟩
  | partly g =>
    rw [afterAssign_partly hp]
    split_ifs with he
    · exact iff_of_false (not_under_owned r) (isEmpty_iff.mp he r)
    · exact Iff.rfl

/-- Writing a part leaves gone what is under a gone path that is not at or under the part. -/
theorem outcome_afterAssign {p : Path} (hp : p ≠ []) (s : MoveState) (o : Option Path) :
    (s.afterAssign p).Outcome o ↔ (o = none ∧ s.Outcome none) ∨
      ∃ r r', o = some r ∧ s.Outcome (some r') ∧ ¬ p <+: r' ∧ r' <+: r := by
  cases o with
  | none => simp [Outcome, afterAssign_eq_moved hp]
  | some r =>
    refine (under_afterAssign hp s r).trans (under_clear.trans ?_)
    simp [Outcome]

/-! ## 4. The states that occur -/

/-- The gone paths of a state that is neither owned nor moved: there are some, and none of them
    extends another. -/
def Normal : MoveState → Prop
  | .partly g => (∃ q, q ∈ g) ∧ ∀ p ∈ g, ∀ q ∈ g, q <+: p → q = p
  | _ => True

theorem normal_minimize {s : PathSet} {r : Path} (h : Under s r) : Normal (.partly (minimize s)) := by
  obtain ⟨q, hq, _⟩ := under_minimize.mpr h
  refine ⟨⟨q, hq⟩, fun p hp q hq hqp => ?_⟩
  exact (mem_minimize.mp hp).2 q (mem_minimize.mp hq).1 hqp

theorem exists_under {s : PathSet} (h : ¬ s.isEmpty = true) : ∃ r, Under s r := by
  by_contra hc
  exact h (isEmpty_iff.mpr (not_exists.mp hc))

theorem Normal.join {a b : MoveState} (ha : a.Normal) : (a.join b).Normal := by
  by_cases hab : a = b
  · rw [MoveState.join, if_pos hab]
    exact ha
  rw [join_of_ne hab]
  split_ifs with hu
  · trivial
  · obtain ⟨r, hr⟩ := exists_under hu
    exact normal_minimize hr

theorem Normal.afterMove {s : MoveState} (p : Path) : (s.afterMove p).Normal := by
  by_cases hp : p = []
  · subst hp
    trivial
  · by_cases hs : s = .moved
    · rw [hs, afterMove_moved]
      trivial
    · rw [afterMove_of_ne hp hs]
      exact normal_minimize (under_clear_insert.mpr (Or.inr List.prefix_rfl))

theorem Normal.afterAssign {s : MoveState} (hs : s.Normal) (p : Path) : (s.afterAssign p).Normal := by
  by_cases hp : p = []
  · subst hp
    trivial
  cases s with
  | owned =>
    rw [afterAssign_owned]
    trivial
  | moved =>
    rw [afterAssign_moved hp]
    trivial
  | partly g =>
    rw [afterAssign_partly hp]
    split_ifs with he
    · trivial
    · obtain ⟨r, q, hq, _⟩ := exists_under he
      refine ⟨⟨q, hq⟩, fun p hp q hq => ?_⟩
      exact hs.2 p (mem_clear.mp hp).1 q (mem_clear.mp hq).1

/-! ## 5. States told from their outcomes -/

theorem Normal.eq_owned_iff {s : MoveState} (hs : s.Normal) :
    s = .owned ↔ ∀ r, ¬ s.Outcome (some r) := by
  constructor
  · rintro rfl
    exact not_under_owned
  · intro h
    cases s with
    | owned => rfl
    | moved => exact absurd (under_moved []) (h [])
    | partly g =>
      obtain ⟨q, hq⟩ := hs.1
      exact absurd ⟨q, hq, List.prefix_rfl⟩ (h q)

section Union

variable {ι : Type} {st : MoveState} {S : ι → MoveState}

theorem eq_owned_of_union (hst : st.Normal) (hS : ∀ i, (S i).Normal)
    (h : ∀ o, st.Outcome o ↔ ∃ i, (S i).Outcome o) : st = .owned ↔ ∀ i, S i = .owned := by
  simp only [hst.eq_owned_iff, fun i => (hS i).eq_owned_iff, h, not_exists]
  exact forall_comm

theorem eq_moved_of_union (h : ∀ o, st.Outcome o ↔ ∃ i, (S i).Outcome o) :
    st = .moved ↔ ∀ i, S i = .moved := by
  have hnone := (h none).not
  simp only [Outcome, not_not, not_exists] at hnone
  exact hnone

/-- The gone paths are those of the family that extend no other. -/
theorem mem_gone_of_union {g : PathSet} (hst : (MoveState.partly g).Normal)
    (h : ∀ o, (MoveState.partly g).Outcome o ↔ ∃ i, (S i).Outcome o) (q : Path) :
    q ∈ g ↔ (∃ i, q ∈ (S i).gone) ∧ ∀ q', (∃ i, q' ∈ (S i).gone) → q' <+: q → q' = q := by
  have hup : ∀ r, Under g r ↔ ∃ i, Under (S i).gone r := fun r => h (some r)
  have hfam : ∀ r, (∃ i, r ∈ (S i).gone) → Under g r :=
    fun r ⟨i, hr⟩ => (hup r).mpr ⟨i, r, hr, List.prefix_rfl⟩
  -- a path of `g` has one of the family above it, which has one of `g` above it: all three agree
  have hmem : ∀ p ∈ g, ∃ i, p ∈ (S i).gone := by
    intro p hp
    obtain ⟨i, r, hr, hrp⟩ := (hup p).mp ⟨p, hp, List.prefix_rfl⟩
    obtain ⟨p', hp', hpr⟩ := hfam r ⟨i, hr⟩
    have he : p' = p := hst.2 p hp p' hp' (hpr.trans hrp)
    have hrp' : r = p := hrp.eq_of_length (Nat.le_antisymm hrp.length_le (he ▸ hpr.length_le))
    exact ⟨i, hrp' ▸ hr⟩
  constructor
  · intro hq
    refine ⟨hmem q hq, fun q' hq' hpre => ?_⟩
    obtain ⟨p, hp, hpq⟩ := hfam q' hq'
    have he : p = q := hst.2 q hq p hp (hpq.trans hpre)
    exact hpre.eq_of_length (Nat.le_antisymm hpre.length_le (he ▸ hpq.length_le))
  · intro hx
    obtain ⟨hq, hmin⟩ := hx
    obtain ⟨p, hp, hpq⟩ := hfam q hq
    exact hmin p (hmem p hp) hpq ▸ hp

end Union

/-! ## 6. Reading -/

theorem overlaps_of_shorter {q r p : Path} (h : q <+: r) (ho : Path.overlaps r p = true) :
    Path.overlaps q p = true := by
  induction q generalizing r p with
  | nil => rw [Path.overlaps]
  | cons a q ih =>
    obtain ⟨t, rfl⟩ := h
    cases p with
    | nil => rfl
    | cons b p =>
      rw [List.cons_append, Path.overlaps] at ho
      rw [Path.overlaps]
      by_cases hab : a = b
      · rw [if_pos hab] at ho ⊢
        exact ih (List.prefix_append q t) ho
      · rw [if_neg hab] at ho ⊢
        exact ho

/-- **A read finds something missing if a gone path overlaps what is read.** -/
theorem missing?_ne_none {p : Path} {s : MoveState} :
    s.missing? p ≠ none ↔ ∃ q ∈ s.gone, Path.overlaps q p = true := by
  cases s with
  | owned => simp [missing?, gone]
  | moved =>
    refine iff_of_true (fun h => nomatch h) ⟨[], ExtTreeSet.mem_insert_self, ?_⟩
    rw [Path.overlaps]
  | partly g =>
    rw [missing?, Option.ne_none_iff_isSome, List.find?_isSome]
    simp only [List.mem_mergeSort, ExtTreeSet.mem_toList, gone]

theorem gone_overlaps_iff {s : MoveState} {p : Path} :
    (∃ q ∈ s.gone, Path.overlaps q p = true) ↔
      ∃ r, s.Outcome (some r) ∧ Path.overlaps r p = true := by
  constructor
  · intro h
    obtain ⟨q, hq, ho⟩ := h
    exact ⟨q, ⟨q, hq, List.prefix_rfl⟩, ho⟩
  · intro h
    obtain ⟨r, ⟨q, hq, hr⟩, ho⟩ := h
    exact ⟨q, hq, overlaps_of_shorter hr ho⟩

end MoveState

end Ownership
