import Mathlib.Data.List.Basic

/-!
# Dominance, by ways

A block dominates another when every way from the entry to the other leads through it. This is said
here of any edges, without regard to how dominators are found.

* `Way`: the ways from the entry, with the blocks on them; `Way.first_arrival` cuts a way off where it
  first comes to a block, `Way.splice` replaces its beginning;
* `Dominates`, `StrictlyDominates`: dominance, an order on the blocks that are reached
  (`Dominates.trans`, `Dominates.antisymm`);
* `ClosestDominator`: the strict dominator that all others dominate. Every block that is reached has
  one, the entry excepted (`exists_closestDominator`), and no other (`ClosestDominator.unique`).
-/

namespace Ownership

variable {α : Type} {edge : α → α → Prop} {entry : α}

/-! ## 1. Ways -/

/-- `Way edge entry b ps`: edges lead from the entry to `b`, and `ps` are the blocks on the way, from
    `b` back to the entry. -/
inductive Way (edge : α → α → Prop) (entry : α) : α → List α → Prop where
  | start : Way edge entry entry [entry]
  | step {a b : α} {ps : List α} (h : Way edge entry a ps) (he : edge a b) :
      Way edge entry b (b :: ps)

namespace Way

variable {a b c : α} {ps qs rs : List α}

theorem head_eq (h : Way edge entry b (c :: ps)) : b = c := by
  cases h with
  | start => rfl
  | step => rfl

theorem mem_self (h : Way edge entry b ps) : b ∈ ps := by
  cases h with
  | start => exact List.mem_cons_self
  | step => exact List.mem_cons_self

theorem mem_entry (h : Way edge entry b ps) : entry ∈ ps := by
  induction h with
  | start => exact List.mem_cons_self
  | step _ _ ih => exact List.mem_cons_of_mem _ ih

/-- The last step of a way with more than one block on it. -/
theorem last_step (h : Way edge entry b (c :: ps)) (hps : ps ≠ []) :
    ∃ a, Way edge entry a ps ∧ edge a b := by
  cases h with
  | start => exact absurd rfl hps
  | step hway he => exact ⟨_, hway, he⟩

theorem mono {edge' : α → α → Prop} (hsub : ∀ a b, edge a b → edge' a b) (h : Way edge entry b ps) :
    Way edge' entry b ps := by
  induction h with
  | start => exact .start
  | step _ he ih => exact .step ih (hsub _ _ he)

/-- A way can be cut off where it first comes to a block. -/
theorem first_arrival (h : Way edge entry b ps) (ha : a ∈ ps) :
    ∃ qs, Way edge entry a (a :: qs) ∧ a ∉ qs ∧ a :: qs <:+ ps := by
  induction h with
  | start =>
    rw [List.mem_singleton.mp ha]
    exact ⟨[], .start, List.not_mem_nil, List.suffix_rfl⟩
  | @step c d ps hway he ih =>
    by_cases hmem : a ∈ ps
    · obtain ⟨qs, hqs, hnot, hsuf⟩ := ih hmem
      exact ⟨qs, hqs, hnot, hsuf.trans (List.suffix_cons d ps)⟩
    · obtain rfl := (List.mem_cons.mp ha).resolve_right hmem
      exact ⟨ps, hway.step he, hmem, List.suffix_rfl⟩

/-- The beginning of a way, up to one of its blocks, can be replaced by any other way there. -/
theorem splice (h : Way edge entry b (ps ++ c :: qs)) (hc : Way edge entry c rs) :
    Way edge entry b (ps ++ rs) := by
  induction ps generalizing b with
  | nil =>
    rw [head_eq h]
    exact hc
  | cons x ps ih =>
    obtain rfl := head_eq h
    obtain ⟨a, hway, he⟩ := last_step h (List.append_ne_nil_of_right_ne_nil _ (List.cons_ne_nil _ _))
    exact .step (ih hway) he

end Way

/-! ## 2. Dominance -/

/-- Every way from the entry to `b` leads through `a`. -/
def Dominates (edge : α → α → Prop) (entry a b : α) : Prop := ∀ ps, Way edge entry b ps → a ∈ ps

/-- Dominance of another block. -/
def StrictlyDominates (edge : α → α → Prop) (entry a b : α) : Prop :=
  a ≠ b ∧ Dominates edge entry a b

namespace Dominates

variable {a b c : α}

theorem refl (b : α) : Dominates edge entry b b := fun _ h => h.mem_self

theorem of_entry (b : α) : Dominates edge entry entry b := fun _ h => h.mem_entry

theorem trans (hab : Dominates edge entry a b) (hbc : Dominates edge entry b c) :
    Dominates edge entry a c := by
  intro ps h
  obtain ⟨qs, hqs, _, hsuf⟩ := h.first_arrival (hbc ps h)
  exact hsuf.subset (hab _ hqs)

/-- Blocks that are reached do not dominate each other: on a way that comes to `b` only once, the way
    to `a` is over before. -/
theorem antisymm (hreach : ∃ ps, Way edge entry b ps) (hab : Dominates edge entry a b)
    (hba : Dominates edge entry b a) : a = b := by
  obtain ⟨ps, h⟩ := hreach
  obtain ⟨qs, hqs, hnot, _⟩ := h.first_arrival h.mem_self
  by_contra hne
  have hmem : a ∈ b :: qs := hab _ hqs
  obtain ⟨rs, hrs, _, hsuf⟩ := hqs.first_arrival hmem
  rcases List.suffix_cons_iff.mp hsuf with he | hsuf
  · exact hne (List.cons.inj he).1
  · exact hnot (hsuf.subset (hba _ hrs))

/-- What dominates the end of an edge is that end or dominates its start. -/
theorem of_edge (h : Dominates edge entry a b) (he : edge c b) :
    a = b ∨ Dominates edge entry a c := by
  by_cases hab : a = b
  · exact Or.inl hab
  · exact Or.inr fun ps hps => (List.mem_cons.mp (h _ (hps.step he))).resolve_left hab

end Dominates

/-! ## 3. The closest dominator -/

/-- A strict dominator that every other one dominates. -/
def ClosestDominator (edge : α → α → Prop) (entry c b : α) : Prop :=
  StrictlyDominates edge entry c b ∧
    ∀ a, StrictlyDominates edge entry a b → a ≠ c → Dominates edge entry a c

variable {a b c : α}

theorem ClosestDominator.dominates (h : ClosestDominator edge entry c b)
    (ha : StrictlyDominates edge entry a b) : Dominates edge entry a c := by
  by_cases hac : a = c
  · rw [hac]
    exact .refl c
  · exact h.2 a ha hac

/-- A block on a way is reached itself. -/
theorem Dominates.reached (h : Dominates edge entry a b) (hreach : ∃ ps, Way edge entry b ps) :
    ∃ ps, Way edge entry a ps := by
  obtain ⟨ps, hps⟩ := hreach
  obtain ⟨qs, hqs, _⟩ := hps.first_arrival (h ps hps)
  exact ⟨_, hqs⟩

theorem ClosestDominator.unique (hreach : ∃ ps, Way edge entry b ps)
    (hc : ClosestDominator edge entry c b) (ha : ClosestDominator edge entry a b) : a = c :=
  Dominates.antisymm (hc.1.2.reached hreach) (hc.dominates ha.1) (ha.dominates hc.1)

/-- The strict dominators of a block are the dominators of the closest one. -/
theorem ClosestDominator.strictlyDominates_iff (hreach : ∃ ps, Way edge entry b ps)
    (hc : ClosestDominator edge entry c b) :
    StrictlyDominates edge entry a b ↔ Dominates edge entry a c := by
  refine ⟨hc.dominates, fun ha => ⟨?_, ha.trans hc.1.2⟩⟩
  intro hab
  subst hab
  exact hc.1.1 (Dominates.antisymm hreach hc.1.2 ha)

/-- **Every block that is reached has a closest dominator, the entry excepted**: the last strict
    dominator on a way to it. A way that avoids another one up to there would avoid it to the end. -/
theorem exists_closestDominator (hreach : ∃ ps, Way edge entry b ps) (hb : b ≠ entry) :
    ∃ c, ClosestDominator edge entry c b := by
  classical
  obtain ⟨ps, h⟩ := hreach
  obtain ⟨qs, hqs, hnot, _⟩ := h.first_arrival h.mem_self
  have hentry : entry ∈ qs := (List.mem_cons.mp hqs.mem_entry).resolve_left (Ne.symm hb)
  have hfind : (qs.find? fun a => decide (Dominates edge entry a b)) ≠ none := by
    intro hnone
    exact List.find?_eq_none.mp hnone entry hentry (decide_eq_true (.of_entry b))
  obtain ⟨c, hc⟩ := Option.ne_none_iff_exists'.mp hfind
  obtain ⟨hdom, before, behind, hsplit, hbefore⟩ := List.find?_eq_some_iff_append.mp hc
  have hcb : c ≠ b := by
    intro e
    exact hnot (e ▸ List.mem_of_find?_eq_some hc)
  refine ⟨c, ⟨hcb, of_decide_eq_true hdom⟩, fun a ha _ rs hrs => ?_⟩
  have hqs : Way edge entry b ((b :: before) ++ c :: behind) := by
    rw [hsplit] at hqs
    exact hqs
  have hway : Way edge entry b ((b :: before) ++ rs) := hqs.splice hrs
  rcases List.mem_append.mp (ha.2 _ hway) with hmem | hmem
  · rcases List.mem_cons.mp hmem with hab | hmem
    · exact absurd hab ha.1
    · exact absurd (hbefore a hmem) (by simp [ha.2])
  · exact hmem

end Ownership
