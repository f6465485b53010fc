import Mathlib.Data.Finset.Prod
import Ownership.Flow.Dominators
import Ownership.Proofs.Collections
import Ownership.Proofs.Flow.Dominance

/-!
# Dominators are found exactly

The dominators of a block are what is left of its candidates when the sweeps change nothing any more.
No sweep ever takes out a dominator, and every sweep that changes something takes out a candidate; so
the sweeps come to an end, and at the end a candidate that is on some way missing would have been
taken out one block earlier, back to the entry, which has no candidate but itself.

* `Edge`: the edges between listed blocks; `Settles`: sweeping until nothing changes, without a bound;
* `Candidates`: what every sweep preserves; `sweep_cases`: a sweep changes nothing or takes a candidate
  out, so the sweeps end within their bound (`settle_settles`);
* `Candidates.exact`: the sets that a sweep does not change are the dominators along ways;
* `parent?_closest`: the parent of a block is its closest dominator;
* `Climbs`: from parent to parent; `dominators_exact` puts all this together.
-/

namespace Ownership.Dominators

open Std

variable {α : Type} [Ord α] [TransOrd α] [LawfulEqOrd α] [DecidableEq α]

/-! ## 1. Ways through listed blocks -/

/-- The edges between listed blocks. -/
def Edge (order : List α) (preds : α → List α) (p b : α) : Prop :=
  p ∈ order ∧ b ∈ order ∧ p ∈ preds b

/-- The predecessors of a block that are listed. -/
def listedPreds (order : List α) (preds : α → List α) (b : α) : List α :=
  (preds b).filter (ExtTreeSet.ofList order : ExtTreeSet α).contains

variable {entry : α} {order : List α} {preds : α → List α} {sets : ExtTreeMap α (ExtTreeSet α)} {a b : α}

theorem mem_ofList_order : a ∈ (ExtTreeSet.ofList order : ExtTreeSet α) ↔ a ∈ order := by
  rw [ExtTreeSet.mem_ofList, List.contains_iff_mem]

theorem mem_listedPreds {p : α} : p ∈ listedPreds order preds b ↔ p ∈ preds b ∧ p ∈ order := by
  rw [listedPreds, List.mem_filter, ExtTreeSet.contains_iff_mem, mem_ofList_order]

omit [Ord α] [TransOrd α] [LawfulEqOrd α] [DecidableEq α] in
/-- There are listed blocks only on a way. -/
theorem listed_of_way (hentry : entry ∈ order) {ps : List α} (h : Way (Edge order preds) entry b ps) :
    ∀ a ∈ ps, a ∈ order := by
  induction h with
  | start =>
    intro a ha
    rw [List.mem_singleton.mp ha]
    exact hentry
  | step _ he ih =>
    intro a ha
    rcases List.mem_cons.mp ha with rfl | ha
    · exact he.2.1
    · exact ih a ha

/-- A block that is reached has a listed predecessor, the entry excepted. -/
theorem listedPreds_ne_nil (hreach : ∃ ps, Way (Edge order preds) entry b ps) (hb : b ≠ entry) :
    listedPreds order preds b ≠ [] := by
  obtain ⟨ps, h⟩ := hreach
  cases h with
  | start => exact absurd rfl hb
  | step _ he => exact List.ne_nil_of_mem (mem_listedPreds.mpr ⟨he.2.2, he.1⟩)

/-! ## 2. Cutting down -/

omit [DecidableEq α] in
theorem mem_meet {ps : List α} :
    a ∈ meet sets ps ↔ ps ≠ [] ∧ ∀ p ∈ ps, a ∈ sets.getD p ∅ := by
  have hfold : ∀ (ps : List α) (s : ExtTreeSet α),
      a ∈ ps.foldl (fun s q => s.filter (sets.getD q ∅).contains) s ↔
        a ∈ s ∧ ∀ p ∈ ps, a ∈ sets.getD p ∅ := by
    intro ps
    induction ps with
    | nil => simp
    | cons p ps ih =>
      intro s
      rw [List.foldl_cons, ih, mem_filter_iff, ExtTreeSet.contains_iff_mem, List.forall_mem_cons, and_assoc]
  cases ps with
  | nil => simp [meet]
  | cons p ps =>
    rw [meet, hfold, List.forall_mem_cons]
    exact (and_iff_right (List.cons_ne_nil p ps)).symm

/-- What is left of the candidates for a block. -/
def cut (preds : α → List α) (sets : ExtTreeMap α (ExtTreeSet α)) (b : α) : ExtTreeSet α :=
  (meet sets (preds b)).insert b

omit [DecidableEq α] in
theorem mem_cut : a ∈ cut preds sets b ↔
    a = b ∨ preds b ≠ [] ∧ ∀ p ∈ preds b, a ∈ sets.getD p ∅ := by
  rw [cut, mem_insert_iff, mem_meet]

omit [LawfulEqOrd α] in
theorem refine_of_ne (hb : b ≠ entry) :
    refine entry preds sets b = sets.insert b (cut preds sets b) := if_neg hb

/-- What the sweeps preserve: every dominator is among the candidates, and cutting a set down adds
    nothing to it. -/
structure Candidates (entry : α) (order : List α) (preds : α → List α)
    (sets : ExtTreeMap α (ExtTreeSet α)) : Prop where
  known : ∀ b ∈ order, b ∈ sets
  alone : ∀ a, a ∈ sets.getD entry ∅ ↔ a = entry
  listed : ∀ b ∈ order, ∀ a ∈ sets.getD b ∅, a ∈ order
  kept : ∀ b ∈ order, ∀ a, Dominates (Edge order preds) entry a b → a ∈ sets.getD b ∅
  shrinking : ∀ b ∈ order, b ≠ entry → ∀ a ∈ cut (listedPreds order preds) sets b, a ∈ sets.getD b ∅

/-- All blocks as candidates for each block; the entry has none but itself. -/
def candidates (entry : α) (order : List α) : ExtTreeMap α (ExtTreeSet α) :=
  (order.foldl (fun m b => m.insert b (ExtTreeSet.ofList order))
    (∅ : ExtTreeMap α (ExtTreeSet α))).insert entry ((∅ : ExtTreeSet α).insert entry)

theorem getD_candidates (hb : b ∈ order) (hne : b ≠ entry) :
    (candidates entry order).getD b ∅ = ExtTreeSet.ofList order := by
  rw [candidates, getD_insert_ne hne, ExtTreeMap.getD_eq_getD_getElem?, getElem?_constant, if_pos hb]
  rfl

/-- At first nothing is missing. -/
theorem candidates_start (hentry : entry ∈ order)
    (hreach : ∀ b ∈ order, ∃ ps, Way (Edge order preds) entry b ps) :
    Candidates entry order preds (candidates entry order) := by
  have hself : ∀ a, a ∈ (candidates entry order).getD entry ∅ ↔ a = entry := by
    intro a
    rw [candidates, ExtTreeMap.getD_insert_self, mem_insert_iff]
    exact or_iff_left ExtTreeSet.not_mem_empty
  have hlisted : ∀ b ∈ order, ∀ a ∈ (candidates entry order).getD b ∅, a ∈ order := by
    intro b hb a ha
    by_cases hne : b = entry
    · rw [hne, hself] at ha
      rw [ha]
      exact hentry
    · rw [getD_candidates hb hne] at ha
      exact mem_ofList_order.mp ha
  refine ⟨fun b hb => ?_, hself, hlisted, fun b hb a ha => ?_, fun b hb hne a ha => ?_⟩
  · rw [candidates, ExtTreeMap.mem_insert, ← ExtTreeMap.isSome_getElem?_iff_mem, getElem?_constant,
      if_pos hb]
    exact Or.inr rfl
  · by_cases hne : b = entry
    · rw [hne] at ha ⊢
      exact (hself a).mpr (List.mem_singleton.mp (ha _ .start))
    · rw [getD_candidates hb hne, mem_ofList_order]
      obtain ⟨ps, h⟩ := hreach b hb
      exact listed_of_way hentry h a (ha ps h)
  · rw [getD_candidates hb hne, mem_ofList_order]
    rcases mem_cut.mp ha with rfl | ⟨hpreds, hall⟩
    · exact hb
    · obtain ⟨p, hp⟩ := List.exists_mem_of_ne_nil _ hpreds
      exact hlisted p (mem_listedPreds.mp hp).2 a (hall p hp)

namespace Candidates

/-- A set that is cut down still has all dominators. -/
theorem kept_cut (h : Candidates entry order preds sets)
    (hreach : ∃ ps, Way (Edge order preds) entry b ps) (hb : b ∈ order) (hne : b ≠ entry)
    (ha : Dominates (Edge order preds) entry a b) : a ∈ cut (listedPreds order preds) sets b := by
  by_cases hab : a = b
  · exact mem_cut.mpr (Or.inl hab)
  · refine mem_cut.mpr (Or.inr ⟨listedPreds_ne_nil hreach hne, fun p hp => ?_⟩)
    obtain ⟨hpb, hp⟩ := mem_listedPreds.mp hp
    exact h.kept p hp a ((ha.of_edge ⟨hp, hb, hpb⟩).resolve_left hab)

/-- Cutting a set down takes candidates out of it and leaves the other sets alone. -/
theorem refine_subset (h : Candidates entry order preds sets) (hb : b ∈ order) {c : α}
    (ha : a ∈ (refine entry (listedPreds order preds) sets b).getD c ∅) : a ∈ sets.getD c ∅ := by
  by_cases hne : b = entry
  · rwa [refine, if_pos hne] at ha
  · rw [refine_of_ne hne] at ha
    by_cases hcb : c = b
    · subst hcb
      rw [ExtTreeMap.getD_insert_self] at ha
      exact h.shrinking c hb hne a ha
    · rwa [getD_insert_ne hcb] at ha

/-- **Cutting one set down preserves the candidates.** -/
theorem refine (h : Candidates entry order preds sets)
    (hreach : ∃ ps, Way (Edge order preds) entry b ps) (hb : b ∈ order) :
    Candidates entry order preds (refine entry (listedPreds order preds) sets b) := by
  by_cases hne : b = entry
  · rw [Dominators.refine, if_pos hne]
    exact h
  have hget : ∀ c, c ≠ b → (Dominators.refine entry (listedPreds order preds) sets b).getD c ∅ =
      sets.getD c ∅ := fun c hc => by rw [refine_of_ne hne, getD_insert_ne hc]
  have hself : (Dominators.refine entry (listedPreds order preds) sets b).getD b ∅ =
      cut (listedPreds order preds) sets b := by
    rw [refine_of_ne hne, ExtTreeMap.getD_insert_self]
  -- more is cut off where there are fewer candidates
  have hcut : ∀ c a, a ∈ cut (listedPreds order preds)
      (Dominators.refine entry (listedPreds order preds) sets b) c →
      a ∈ cut (listedPreds order preds) sets c := by
    intro c a ha
    refine mem_cut.mpr ((mem_cut.mp ha).imp_right fun hall => ⟨hall.1, fun p hp => ?_⟩)
    exact h.refine_subset hb (hall.2 p hp)
  refine ⟨fun c hc => ?_, fun a => ?_, fun c hc a ha => ?_, fun c hc a ha => ?_, fun c hc hce a ha => ?_⟩
  · rw [refine_of_ne hne]
    exact ExtTreeMap.mem_insert.mpr (Or.inr (h.known c hc))
  · rw [hget entry (Ne.symm hne)]
    exact h.alone a
  · exact h.listed c hc a (h.refine_subset hb ha)
  · by_cases hcb : c = b
    · subst hcb
      rw [hself]
      exact h.kept_cut hreach hc hne ha
    · rw [hget c hcb]
      exact h.kept c hc a ha
  · by_cases hcb : c = b
    · subst hcb
      rw [hself]
      exact hcut c a ha
    · rw [hget c hcb]
      exact h.shrinking c hc hce a (hcut c a ha)

end Candidates

/-! ## 3. Sweeps come to an end -/

/-- The pairs of a block and a candidate for it. -/
def room (order : List α) (sets : ExtTreeMap α (ExtTreeSet α)) : Finset (α × α) :=
  (order.toFinset ×ˢ order.toFinset).filter fun x => x.2 ∈ sets.getD x.1 ∅

omit [LawfulEqOrd α] in
theorem mem_room : (b, a) ∈ room order sets ↔ (b ∈ order ∧ a ∈ order) ∧ a ∈ sets.getD b ∅ := by
  simp [room]

omit [LawfulEqOrd α] in
theorem card_room_le (order : List α) (sets : ExtTreeMap α (ExtTreeSet α)) :
    (room order sets).card ≤ order.length * order.length := by
  refine (Finset.card_filter_le _ _).trans ?_
  rw [Finset.card_product]
  exact Nat.mul_le_mul order.toFinset_card_le order.toFinset_card_le

/-- Cutting a set down changes nothing, or takes a candidate out. -/
theorem Candidates.refine_cases (h : Candidates entry order preds sets) (hb : b ∈ order) :
    Dominators.refine entry (listedPreds order preds) sets b = sets ∨
      room order (Dominators.refine entry (listedPreds order preds) sets b) ⊂ room order sets := by
  by_cases hne : b = entry
  · exact Or.inl (if_pos hne)
  by_cases hsame : cut (listedPreds order preds) sets b = sets.getD b ∅
  · refine Or.inl (ExtTreeMap.ext_getElem? fun c => ?_)
    rw [refine_of_ne hne, hsame]
    by_cases hcb : c = b
    · rw [hcb, ExtTreeMap.getElem?_insert_self, getElem?_eq_getD_of_mem (h.known b hb)]
    · rw [getElem?_insert_ne hcb]
  · have hsub : room order (Dominators.refine entry (listedPreds order preds) sets b) ⊆ room order sets := by
      intro x ha
      obtain ⟨c, a⟩ := x
      obtain ⟨hlisted, ha⟩ := mem_room.mp ha
      exact mem_room.mpr ⟨hlisted, h.refine_subset hb ha⟩
    refine Or.inr ((Finset.ssubset_iff_of_subset hsub).mpr ?_)
    -- some candidate is not left
    obtain ⟨a, ha, hcut⟩ : ∃ a ∈ sets.getD b ∅, a ∉ cut (listedPreds order preds) sets b := by
      by_contra hno
      push Not at hno
      exact hsame (ExtTreeSet.ext_mem fun a => ⟨h.shrinking b hb hne a, hno a⟩)
    refine ⟨(b, a), mem_room.mpr ⟨⟨hb, h.listed b hb a ha⟩, ha⟩, fun hmem => hcut ?_⟩
    have hleft := (mem_room.mp hmem).2
    rwa [refine_of_ne hne, ExtTreeMap.getD_insert_self] at hleft

section Sweeps

variable (hreach : ∀ b ∈ order, ∃ ps, Way (Edge order preds) entry b ps)

include hreach

/-- Cutting down the sets of some blocks in turn preserves the candidates; it changes nothing at all,
    or takes a candidate out. -/
theorem Candidates.fold_cases {bs : List α} (hbs : ∀ b ∈ bs, b ∈ order)
    (h : Candidates entry order preds sets) :
    Candidates entry order preds (bs.foldl (Dominators.refine entry (listedPreds order preds)) sets) ∧
      ((bs.foldl (Dominators.refine entry (listedPreds order preds)) sets = sets ∧
          ∀ b ∈ bs, Dominators.refine entry (listedPreds order preds) sets b = sets) ∨
        room order (bs.foldl (Dominators.refine entry (listedPreds order preds)) sets) ⊂
          room order sets) := by
  induction bs generalizing sets with
  | nil => exact ⟨h, Or.inl ⟨rfl, fun b hb => absurd hb List.not_mem_nil⟩⟩
  | cons b bs ih =>
    have hb : b ∈ order := hbs b List.mem_cons_self
    have hrest : ∀ c ∈ bs, c ∈ order := fun c hc => hbs c (List.mem_cons_of_mem _ hc)
    obtain ⟨hnext, hcases⟩ := ih hrest (h.refine (hreach b hb) hb)
    refine ⟨hnext, ?_⟩
    rw [List.foldl_cons]
    rcases h.refine_cases hb with hsame | hless
    · rw [hsame] at hcases ⊢
      refine hcases.imp_left fun hall => ⟨hall.1, fun c hc => ?_⟩
      rcases List.mem_cons.mp hc with rfl | hc
      · exact hsame
      · exact hall.2 c hc
    · refine Or.inr ?_
      rcases hcases with ⟨hstay, _⟩ | hmore
      · rw [hstay]
        exact hless
      · exact hmore.trans hless

theorem Candidates.sweep (h : Candidates entry order preds sets) :
    Candidates entry order preds (Dominators.sweep entry order (listedPreds order preds) sets) :=
  (h.fold_cases hreach fun _ hb => hb).1

/-- A sweep that changes something takes a candidate out. -/
theorem Candidates.sweep_shrinks (h : Candidates entry order preds sets)
    (hne : Dominators.sweep entry order (listedPreds order preds) sets ≠ sets) :
    room order (Dominators.sweep entry order (listedPreds order preds) sets) ⊂ room order sets :=
  (h.fold_cases hreach fun _ hb => hb).2.resolve_left fun hsame => hne hsame.1

/-- Sets that a sweep does not change are cut down already. -/
theorem Candidates.getD_eq_cut (h : Candidates entry order preds sets)
    (hfix : Dominators.sweep entry order (listedPreds order preds) sets = sets) (hb : b ∈ order)
    (hne : b ≠ entry) : sets.getD b ∅ = cut (listedPreds order preds) sets b := by
  rcases (h.fold_cases hreach fun _ hb => hb).2 with ⟨_, hall⟩ | hless
  · have hself : (sets.insert b (cut (listedPreds order preds) sets b)).getD b ∅ = sets.getD b ∅ := by
      rw [← refine_of_ne hne, hall b hb]
    rw [← hself, ExtTreeMap.getD_insert_self]
  · rw [Dominators.sweep] at hfix
    rw [hfix] at hless
    exact absurd hless (ssubset_irrefl _)

end Sweeps

/-- Sweep until a sweep changes nothing, however often. -/
inductive Settles (entry : α) (order : List α) (preds : α → List α) :
    ExtTreeMap α (ExtTreeSet α) → ExtTreeMap α (ExtTreeSet α) → Prop where
  | done {sets : ExtTreeMap α (ExtTreeSet α)} (h : sweep entry order preds sets = sets) :
      Settles entry order preds sets sets
  | again {sets last : ExtTreeMap α (ExtTreeSet α)} (h : sweep entry order preds sets ≠ sets)
      (hs : Settles entry order preds (sweep entry order preds sets) last) :
      Settles entry order preds sets last

/-- **With more sweeps than candidates, the sweeps end by themselves.** -/
theorem settle_settles (hreach : ∀ b ∈ order, ∃ ps, Way (Edge order preds) entry b ps) {fuel : Nat}
    (h : Candidates entry order preds sets) (hfuel : (room order sets).card < fuel) :
    Settles entry order (listedPreds order preds) sets
      (settle entry order (listedPreds order preds) fuel sets) := by
  induction fuel generalizing sets with
  | zero => exact absurd hfuel (Nat.not_lt_zero _)
  | succ fuel ih =>
    rw [settle]
    split_ifs with hsame
    · exact .done hsame
    · have hless := Finset.card_lt_card (h.sweep_shrinks hreach hsame)
      exact .again hsame (ih (h.sweep hreach) (by omega))

theorem Settles.candidates (hreach : ∀ b ∈ order, ∃ ps, Way (Edge order preds) entry b ps)
    {last : ExtTreeMap α (ExtTreeSet α)}
    (hs : Settles entry order (listedPreds order preds) sets last)
    (h : Candidates entry order preds sets) :
    Candidates entry order preds last ∧ sweep entry order (listedPreds order preds) last = last := by
  induction hs with
  | done hfix => exact ⟨h, hfix⟩
  | again _ _ ih => exact ih (h.sweep hreach)

/-! ## 4. What is left -/

/-- **Candidates that a sweep leaves alone are the dominators.** -/
theorem Candidates.exact (hreach : ∀ b ∈ order, ∃ ps, Way (Edge order preds) entry b ps)
    (h : Candidates entry order preds sets)
    (hfix : Dominators.sweep entry order (listedPreds order preds) sets = sets) (hb : b ∈ order) :
    a ∈ sets.getD b ∅ ↔ Dominates (Edge order preds) entry a b := by
  refine ⟨fun ha ps hway => ?_, h.kept b hb a⟩
  -- a candidate that is not the block itself is a candidate one block earlier
  induction hway with
  | start =>
    rw [(h.alone a).mp ha]
    exact List.mem_cons_self
  | @step p b ps hway he ih =>
    by_cases hne : b = entry
    · rw [hne, h.alone] at ha
      rw [ha]
      exact List.mem_cons_of_mem _ hway.mem_entry
    · rw [h.getD_eq_cut hreach hfix hb hne] at ha
      rcases mem_cut.mp ha with rfl | ⟨_, hall⟩
      · exact List.mem_cons_self
      · exact List.mem_cons_of_mem _ (ih he.1 (hall p (mem_listedPreds.mpr ⟨he.2.2, he.1⟩)))

theorem compute_sets : (compute entry order preds).sets =
    settle entry order (listedPreds order preds) (order.length * order.length + 1)
      (candidates entry order) := rfl

theorem compute_settles (hentry : entry ∈ order)
    (hreach : ∀ b ∈ order, ∃ ps, Way (Edge order preds) entry b ps) :
    Settles entry order (listedPreds order preds) (candidates entry order)
      (compute entry order preds).sets := by
  rw [compute_sets]
  exact settle_settles hreach (candidates_start hentry hreach) (Nat.lt_succ_of_le (card_room_le _ _))

/-- The sets that are computed are the dominators along ways through listed blocks. -/
theorem mem_of_iff (hentry : entry ∈ order)
    (hreach : ∀ b ∈ order, ∃ ps, Way (Edge order preds) entry b ps) (hb : b ∈ order) :
    b ∈ (compute entry order preds).sets ∧
      (a ∈ (compute entry order preds).of b ↔ Dominates (Edge order preds) entry a b) := by
  obtain ⟨hcand, hfix⟩ := (compute_settles hentry hreach).candidates hreach
    (candidates_start hentry hreach)
  exact ⟨hcand.known b hb, hcand.exact hreach hfix hb⟩

/-! ## 5. Parents -/

theorem getElem?_parents (val : α → Option α) (bs : List α) (m : ExtTreeMap α (Option α)) (b : α) :
    (bs.foldl (fun m b => if b = entry then m else m.insert b (val b)) m)[b]? =
      if b ≠ entry ∧ b ∈ bs then some (val b) else m[b]? := by
  induction bs generalizing m with
  | nil => simp
  | cons c bs ih =>
    rw [List.foldl_cons, ih]
    by_cases hin : b ≠ entry ∧ b ∈ bs
    · rw [if_pos hin, if_pos ⟨hin.1, List.mem_cons_of_mem _ hin.2⟩]
    · rw [if_neg hin]
      by_cases hbc : b = c
      · subst hbc
        by_cases hne : b = entry
        · simp [hne]
        · simp [hne]
      · have hsame : (if c = entry then m else m.insert c (val c))[b]? = m[b]? := by
          split_ifs
          · rfl
          · exact getElem?_insert_ne hbc
        rw [hsame, if_neg]
        intro h
        exact hin ⟨h.1, (List.mem_cons.mp h.2).resolve_left hbc⟩

theorem parents_entry : (compute entry order preds).parents.get? entry = some none := by
  refine (getElem?_parents _ order _ entry).trans ?_
  rw [if_neg fun h => h.1 rfl]
  exact ExtTreeMap.getElem?_insert_self

theorem parents_of_ne (hb : b ∈ order) (hne : b ≠ entry) :
    (compute entry order preds).parents.get? b =
      some (parent? (compute entry order preds).sets b) :=
  (getElem?_parents _ order _ b).trans (if_pos ⟨hne, hb⟩)

/-- **The parent of a block is its closest dominator.** -/
theorem parent?_closest (hentry : entry ∈ order)
    (hreach : ∀ b ∈ order, ∃ ps, Way (Edge order preds) entry b ps) (hb : b ∈ order) (hne : b ≠ entry) :
    ∃ c, parent? (compute entry order preds).sets b = some c ∧
      ClosestDominator (Edge order preds) entry c b := by
  have hdom : ∀ {a b : α}, b ∈ order →
      (a ∈ (compute entry order preds).sets.getD b ∅ ↔ Dominates (Edge order preds) entry a b) :=
    fun hb => (mem_of_iff hentry hreach hb).2
  have hstrict : ∀ a, a ∈ (((compute entry order preds).sets.getD b ∅).erase b).toList ↔
      StrictlyDominates (Edge order preds) entry a b := by
    intro a
    rw [ExtTreeSet.mem_toList, mem_erase_iff, hdom hb, StrictlyDominates]
  have hlisted : ∀ c, StrictlyDominates (Edge order preds) entry c b → c ∈ order := by
    intro c hc
    obtain ⟨ps, hway⟩ := hreach b hb
    exact listed_of_way hentry hway c (hc.2 ps hway)
  obtain ⟨c₀, hc₀⟩ := exists_closestDominator (hreach b hb) hne
  have hfound : (parent? (compute entry order preds).sets b).isSome = true := by
    refine List.find?_isSome.mpr ⟨c₀, (hstrict c₀).mpr hc₀.1, List.all_eq_true.mpr fun a ha => ?_⟩
    exact ExtTreeSet.contains_iff_mem.mpr
      ((hdom (hlisted c₀ hc₀.1)).mpr (hc₀.dominates ((hstrict a).mp ha)))
  obtain ⟨c, hc⟩ := Option.isSome_iff_exists.mp hfound
  have hcb := (hstrict c).mp (List.mem_of_find?_eq_some hc)
  have hall : (((compute entry order preds).sets.getD b ∅).erase b).toList.all
      ((compute entry order preds).sets.getD c ∅).contains = true :=
    List.find?_some (p := fun c => List.all _ ((compute entry order preds).sets.getD c ∅).contains) hc
  refine ⟨c, hc, hcb, fun a ha _ => (hdom (hlisted c hcb)).mp ?_⟩
  exact ExtTreeSet.contains_iff_mem.mp (List.all_eq_true.mp hall a ((hstrict a).mpr ha))

/-- From parent to parent, up to a block that has none. -/
inductive Climbs (d : Dominators α) : α → List α → Prop where
  | top {b : α} (h : d.parents.get? b = some none) : d.Climbs b [b]
  | up {b c : α} {cs : List α} (h : d.parents.get? b = some (some c)) (hc : d.Climbs c cs) :
      d.Climbs b (b :: cs)

/-- Climbing from a block on a way stays on the way: it leads to the entry, past all dominators. -/
theorem exists_climb (hentry : entry ∈ order)
    (hreach : ∀ b ∈ order, ∃ ps, Way (Edge order preds) entry b ps) {ps : List α}
    (hway : Way (Edge order preds) entry b ps) : ∀ c ∈ ps, ∃ cs,
      (compute entry order preds).Climbs c cs ∧ cs.getLast? = some entry ∧
        ∀ a, a ∈ cs ↔ Dominates (Edge order preds) entry a c := by
  have htop : ∃ cs, (compute entry order preds).Climbs entry cs ∧ cs.getLast? = some entry ∧
      ∀ a, a ∈ cs ↔ Dominates (Edge order preds) entry a entry := by
    refine ⟨[entry], .top parents_entry, rfl, fun a => ?_⟩
    refine ⟨fun ha => ?_, fun ha => ha _ .start⟩
    rw [List.mem_singleton.mp ha]
    exact .refl entry
  induction hway with
  | start =>
    intro c hc
    rw [List.mem_singleton.mp hc]
    exact htop
  | @step p b ps hway he ih =>
    intro c hc
    rcases List.mem_cons.mp hc with rfl | hc
    · by_cases hne : c = entry
      · rw [hne]
        exact htop
      · obtain ⟨d, hd, hclosest⟩ := parent?_closest hentry hreach he.2.1 hne
        have hmem : d ∈ ps := (List.mem_cons.mp (hclosest.1.2 _ (hway.step he))).resolve_left hclosest.1.1
        obtain ⟨cs, hcs, hlast, hall⟩ := ih d hmem
        refine ⟨c :: cs, .up ((parents_of_ne he.2.1 hne).trans (congrArg some hd)) hcs, ?_, fun a => ?_⟩
        · rw [List.getLast?_cons, hlast]
          rfl
        · rw [List.mem_cons, hall, ← hclosest.strictlyDominates_iff ⟨_, hway.step he⟩, StrictlyDominates]
          by_cases hac : a = c
          · simp [hac, Dominates.refl]
          · simp [hac]
    · exact ih c hc

/-- **Dominators are found exactly.** The sweeps come to an end; the set of a listed block then holds
    the blocks that lie on every way to it through listed blocks; its parent, unless it is the entry, is
    the one strict dominator that all others dominate; and climbing from parent to parent leads from it
    to the entry past its dominators and nothing else. -/
theorem dominators_exact (hentry : entry ∈ order)
    (hreach : ∀ b ∈ order, ∃ ps, Way (Edge order preds) entry b ps) :
    Settles entry order (listedPreds order preds) (candidates entry order)
        (compute entry order preds).sets ∧
      (∀ b ∈ order, ∃ s, (compute entry order preds).sets.get? b = some s ∧
        ∀ a, a ∈ s ↔ Dominates (Edge order preds) entry a b) ∧
      (compute entry order preds).parents.get? entry = some none ∧
      (∀ b ∈ order, b ≠ entry → ∃ c, (compute entry order preds).parents.get? b = some (some c) ∧
        ClosestDominator (Edge order preds) entry c b ∧
        ∀ c', ClosestDominator (Edge order preds) entry c' b → c' = c) ∧
      ∀ b ∈ order, ∃ cs, (compute entry order preds).Climbs b cs ∧ cs.getLast? = some entry ∧
        ∀ a, a ∈ cs ↔ a ∈ (compute entry order preds).of b := by
  refine ⟨compute_settles hentry hreach, fun b hb => ?_, parents_entry, fun b hb hne => ?_, fun b hb => ?_⟩
  · obtain ⟨hknown, _⟩ := mem_of_iff (a := b) hentry hreach hb
    exact ⟨_, getElem?_eq_getD_of_mem hknown ∅, fun a => (mem_of_iff hentry hreach hb).2⟩
  · obtain ⟨c, hc, hclosest⟩ := parent?_closest hentry hreach hb hne
    exact ⟨c, (parents_of_ne hb hne).trans (congrArg some hc), hclosest,
      fun c' hc' => hclosest.unique (hreach b hb) hc'⟩
  · obtain ⟨ps, hway⟩ := hreach b hb
    obtain ⟨cs, hcs, hlast, hall⟩ := exists_climb hentry hreach hway b hway.mem_self
    exact ⟨cs, hcs, hlast, fun a => (hall a).trans (mem_of_iff hentry hreach hb).2.symm⟩

/-- The predecessors of blocks 0 to 3: blocks 1 and 2 make a loop that is entered at both of them, and a
    block that is not listed leads to block 3. -/
def tanglePreds (b : Nat) : List Nat := [[3], [0, 2], [0, 1], [2, 3, 7]].getD b []

/-- Block 3 is reached through block 2 only, but block 2 not only through block 1. -/
theorem dominators_exact_tangle :
    (∀ b ∈ [3, 0, 2, 1, 3], ∃ ps, Way (Edge [3, 0, 2, 1, 3] tanglePreds) 0 b ps) ∧
      (compute 0 [3, 0, 2, 1, 3] tanglePreds).parents.get? 3 = some (some 2) ∧
      ClosestDominator (Edge [3, 0, 2, 1, 3] tanglePreds) 0 2 3 ∧
      ¬ Dominates (Edge [3, 0, 2, 1, 3] tanglePreds) 0 1 3 := by
  have hzero : Way (Edge [3, 0, 2, 1, 3] tanglePreds) 0 0 [0] := .start
  have hone := hzero.step (b := 1) ⟨by decide, by decide, by decide⟩
  have htwo := hzero.step (b := 2) ⟨by decide, by decide, by decide⟩
  have hthree := htwo.step (b := 3) ⟨by decide, by decide, by decide⟩
  have hreach : ∀ b ∈ [3, 0, 2, 1, 3], ∃ ps, Way (Edge [3, 0, 2, 1, 3] tanglePreds) 0 b ps := by
    simp only [List.forall_mem_cons]
    exact ⟨⟨_, hthree⟩, ⟨_, hzero⟩, ⟨_, htwo⟩, ⟨_, hone⟩, ⟨_, hthree⟩, fun _ hb => absurd hb List.not_mem_nil⟩
  have hparent : (compute 0 [3, 0, 2, 1, 3] tanglePreds).parents.get? 3 = some (some 2) := by
    decide +kernel
  have hset : ((compute 0 [3, 0, 2, 1, 3] tanglePreds).sets.get? 3).map (·.contains 1) = some false := by
    decide +kernel
  obtain ⟨_, hsets, _, hparents, _⟩ := dominators_exact (by decide) hreach
  obtain ⟨c, hc, hclosest, _⟩ := hparents 3 (by decide) (by decide)
  obtain ⟨s, hs, hexact⟩ := hsets 3 (by decide)
  rw [hparent, Option.some.injEq, Option.some.injEq] at hc
  rw [hs, Option.map_some, Option.some.injEq] at hset
  refine ⟨hreach, hparent, hc ▸ hclosest, fun hdom => ?_⟩
  rw [ExtTreeSet.contains_iff_mem.mpr ((hexact 1).mpr hdom)] at hset
  cases hset

end Ownership.Dominators
