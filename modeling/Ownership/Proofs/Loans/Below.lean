import Ownership.Proofs.Loans.InUse

/-!
# Loans found with fewer visits

A pass that used up its visits has found out less than it would have with more of them. Liveness and
loans are both used up on their own, and the loans are computed from whatever liveness found; still
every loan in use that is found that way stands beside one that the complete passes find.

* `mem_liveBefore_of_capped`, `mem_liveAfter_of_capped`: what is found live is live;
* `holdRule_mono`, `collect_mono`: more liveness, more references;
* `Loan.Alike`, `LoanFacts.Below`: facts in which every loan in use has one of its kind in others;
* `analyse_below`: what is found with any number of visits is below what complete passes find.
-/

namespace Ownership

open Std (ExtTreeMap ExtTreeSet)

variable {f : Function} {types : TypeTable} {cap full : Nat}

/-! ## 1. Liveness -/

section Liveness

variable (hf : f.WellFormed) (hlive : (f.trackLive f.graph types full).converged = true) {p : Point}
  (hb : p.block ∈ f.graph.order) (hp : p.stmt ≤ (f.block p.block).statements.length) {r : String}

include hf hb hp

/-- What is found live behind a point is used on some way on, whether the pass converged or not. -/
theorem liveAt_of_mem_liveAfter (h : r ∈ (f.trackLive f.graph types cap).liveAfter p) :
    ∃ q, f.Step p q ∧ f.LiveAt (f.tracked types) q r := by
  obtain ⟨left, hinv, _⟩ := LiveInvariant.last hf types cap
  obtain ⟨b, n⟩ := p
  rw [(Function.liveFacts_at hf types cap hb hp).2, Function.liveBehind] at h
  split_ifs at h with hlt
  · exact ⟨⟨b, n + 1⟩, .next hlt, Function.liveAt_of_mem_liveFrom (hinv.usedBehind b) hlt h⟩
  · obtain ⟨t, ht, hlive⟩ := hinv.usedBehind b r h
    have hexit : (⟨b, n⟩ : Point) = f.exitOf b :=
      congrArg (Point.mk b) (Nat.le_antisymm hp (Nat.not_lt.mp hlt))
    rw [hexit]
    exact ⟨⟨t, 0⟩, .jump ht, hlive⟩

include hlive

theorem mem_liveBefore_of_capped (h : r ∈ (f.trackLive f.graph types cap).liveBefore p) :
    r ∈ (f.trackLive f.graph types full).liveBefore p :=
  (mem_liveBefore hf hlive hb hp).mpr (liveAt_of_mem_liveBefore hf hb hp h)

theorem mem_liveAfter_of_capped (h : r ∈ (f.trackLive f.graph types cap).liveAfter p) :
    r ∈ (f.trackLive f.graph types full).liveAfter p := by
  obtain ⟨q, hstep, hq⟩ := liveAt_of_mem_liveAfter hf hb hp h
  refine (mem_liveAfter hf hlive hb hp).mpr ⟨q, hstep, ?_⟩
  cases hstep with
  | @next b n hlt => exact (mem_liveBefore (p := ⟨b, n + 1⟩) hf hlive hb hlt).mpr hq
  | jump ht =>
    have hord := hf.graph_sound.closed _ hb _ (Function.mem_succsOf.mpr ht)
    exact (mem_liveBefore hf hlive hord (Nat.zero_le _)).mpr hq

end Liveness

/-! ## 2. References -/

section References

variable (hf : f.WellFormed) (hlive : (f.trackLive f.graph types full).converged = true)

include hf hlive

/-- The rule of a point hands on at least as many references if more is live. -/
theorem holdRule_mono {p : Point} (hb : p.block ∈ f.graph.order)
    (hp : p.stmt ≤ (f.block p.block).statements.length) {A B : Set Hold} (hAB : A ⊆ B) :
    f.holdRule types (f.trackLive f.graph types cap) p A ⊆
      f.holdRule types (f.trackLive f.graph types full) p B := by
  refine Set.Subset.trans (fun x hx => ?_) ((Function.holdRule_additive p).mono hAB)
  unfold Function.holdRule at hx ⊢
  split at hx
  · rcases hx with ⟨hafter, hmade⟩ | ⟨y, hy, hafter, hrest⟩
    · exact Or.inl ⟨mem_liveAfter_of_capped hf hlive hb hp hafter, hmade⟩
    · exact Or.inr ⟨y, hy, mem_liveAfter_of_capped hf hlive hb hp hafter, hrest⟩
  · obtain hno | ⟨y, hy, hret, rfl, hout⟩ := hx
    · exact Or.inl hno
    · refine Or.inr ⟨y, hy, hret, rfl, ?_⟩
      rw [Function.liveOut_eq hf types _ hb] at hout ⊢
      exact mem_liveAfter_of_capped (p := f.exitOf p.block) hf hlive hb (Nat.le_refl _) hout

theorem along_mono {p : Point} {ps : List Point} (hr : f.Route p ps) :
    along (f.holdRule types (f.trackLive f.graph types cap)) ∅ ps ⊆
      along (f.holdRule types (f.trackLive f.graph types full)) ∅ ps := by
  induction hr with
  | start => exact Set.Subset.rfl
  | step hr _ ih =>
    obtain ⟨hb, hp⟩ := hr.mem_order hf
    exact holdRule_mono hf hlive hb hp ih

end References

/-- The loans that reach a point, whether the pass converged or not, stand for references that the
    rule collects along the routes to it. -/
theorem reaching_sub_collect (hf : f.WellFormed) {live : LiveFacts} {p : Point} {x : Hold}
    (hx : x ∈ readLoans (f.trackLoans f.graph types cap live).loans
      ((f.trackLoans f.graph types cap live).reaching p)) :
    (∃ row, (f.trackLoans f.graph types cap live).points.get? p = some row) ∧ f.Reaches p ∧
      x ∈ f.collect (f.holdRule types live) ∅ p := by
  cases hget : (f.trackLoans f.graph types cap live).points.get? p with
  | none =>
    rw [LoanFacts.reaching, hget] at hx
    obtain ⟨i, hi, _⟩ := hx
    exact absurd hi ExtTreeSet.not_mem_empty
  | some row =>
    rw [LoanFacts.reaching, hget] at hx
    rw [Function.trackLoans_points] at hget
    obtain ⟨_, hkeys, hrows⟩ := Function.loanRows_spec hf types cap live
    obtain ⟨e, he, rfl, rfl⟩ := (mem_of_getElem?_rows Prod.fst Prod.snd hget).resolve_right
      fun hempty => Option.some_ne_none _ (hempty.symm.trans ExtTreeMap.getElem?_empty)
    obtain ⟨ids, hids, hread⟩ := hrows e he
    have hpoint : e.1 ∈ f.visitedPoints (f.lastLoans types cap live).ins f.graph.order :=
      hkeys ▸ List.mem_map_of_mem he
    obtain ⟨b, _, hpb⟩ := List.mem_flatMap.mp hpoint
    split_ifs at hpb
    · obtain ⟨rfl, hstmt⟩ := Function.mem_pointsOf.mp hpb
      have hin : (f.lastLoans types cap live).insHolds e.1.block = some (readLoans _ ids) :=
        congrArg _ hids
      obtain ⟨hreach, hsub⟩ := loansPass.sub_collect hf (Function.startLoans hf) hin
      refine ⟨⟨e.2, rfl⟩, hreach.within hstmt, ?_⟩
      have hx : x ∈ readLoans (f.loanRows types cap live).1 e.2.reaching := hx
      rw [hread] at hx
      rw [← through_collect Function.holdRule_additive hreach hstmt]
      exact through_mono Function.holdRule_additive _ _ hsub hx
    · cases hpb

/-! ## 3. Loans in use -/

/-- Two loans that no check tells apart. -/
structure Loan.Alike (x y : Loan) : Prop where
  place : x.place = y.place
  kind : x.kind = y.kind
  holder : x.holder = y.holder
  origin : x.origin = y.origin

/-- Every loan in use has one of its kind in use in the other facts. -/
structure LoanFacts.Below (facts facts' : LoanFacts) : Prop where
  issued : ∀ p, facts.issued p = facts'.issued p
  before : ∀ p, ∀ x ∈ facts.activeBefore p, ∃ y ∈ facts'.activeBefore p, x.Alike y
  after : ∀ p, ∀ x ∈ facts.activeAfter p, ∃ y ∈ facts'.activeAfter p, x.Alike y
  escaping : ∀ p, ∀ x ∈ facts.escaping p, ∃ y ∈ facts'.escaping p, x.Alike y

section Below

variable (hf : f.WellFormed) (hlive : (f.analyse types full).live.converged = true)
  (hloans : (f.analyse types full).loans.converged = true) {p : Point}

include hf

theorem alike_of_hold {x y : Loan} (hx : x ∈ (f.analyse types cap).loans.loans)
    (hy : y ∈ (f.analyse types full).loans.loans) {z : Hold} (hxz : x.hold? = some z)
    (hyz : y.hold? = some z) : x.Alike y := by
  obtain ⟨hxo, _, hxh⟩ := Loan.hold?_eq_some.mp hxz
  obtain ⟨hyo, _, hyh⟩ := Loan.hold?_eq_some.mp hyz
  obtain ⟨o, ho, hplace, hkind⟩ := (analyse_table hf types cap).rooted x hx
  obtain ⟨o', ho', hplace', hkind'⟩ := (analyse_table hf types full).rooted y hy
  rw [hxo] at ho
  rw [hyo] at ho'
  cases ho.symm.trans ho'
  exact ⟨hplace.symm.trans hplace', hkind.symm.trans hkind', hxh.trans hyh.symm, hxo.trans hyo.symm⟩

include hlive hloans

/-- A loan that reaches a point with any number of visits has one of its kind among those that reach
    it with enough of them. -/
theorem exists_alike {i : Nat} {x : Loan} (hi : i ∈ (f.analyse types cap).loans.reaching p)
    (hx : (f.analyse types cap).loans.loans[i]? = some x) {r : String} (hr : x.holder = some r) :
    (∃ row, (f.analyse types cap).loans.points.get? p = some row) ∧ f.Reaches p ∧
      ∃ j ∈ (f.analyse types full).loans.reaching p, ∃ y,
        (f.analyse types full).loans.loans[j]? = some y ∧ y.holder = some r ∧ x.Alike y := by
  have hhold : x.hold? = some ⟨x.origin, x.issuedAt, r⟩ := Loan.hold?_eq_some.mpr ⟨rfl, rfl, hr⟩
  obtain ⟨hrow, hreach, ps, hps, hmem⟩ := reaching_sub_collect hf ⟨i, hi, x, hx, hhold⟩
  have hcol : (⟨x.origin, x.issuedAt, r⟩ : Hold) ∈
      f.collect (f.holdRule types (f.trackLive f.graph types full)) ∅ p :=
    ⟨ps, hps, along_mono hf hlive hps hmem⟩
  rw [← Function.reaching_collect hf hloans hreach] at hcol
  obtain ⟨j, hj, y, hy, hyh⟩ := hcol
  refine ⟨hrow, hreach, j, hj, y, hy, (Loan.hold?_eq_some.mp hyh).2.2, ?_⟩
  exact alike_of_hold hf (List.mem_of_getElem? hx) (List.mem_of_getElem? hy) hhold hyh

/-- **What is found with any number of visits is below what complete passes find.** -/
theorem analyse_below : LoanFacts.Below (f.analyse types cap).loans (f.analyse types full).loans where
  issued p := by
    exact ((analyse_table hf types cap).issuedAtPoint_eq p).trans
      ((analyse_table hf types full).issuedAtPoint_eq p).symm
  before p x hx := by
    obtain ⟨⟨i, hi, hget⟩, hheld⟩ := LoanFacts.mem_heldIn.mp hx
    obtain ⟨r, hr, hroot⟩ := (Option.any_eq_true _ _).mp hheld
    obtain ⟨_, ⟨ps, hps⟩, j, hj, y, hy, hyr, halike⟩ := exists_alike hf hlive hloans hi hget hr
    obtain ⟨hb, hp⟩ := hps.mem_order hf
    refine ⟨y, LoanFacts.mem_heldIn.mpr ⟨⟨j, hj, hy⟩, (Option.any_eq_true _ _).mpr ⟨r, hyr, ?_⟩⟩, halike⟩
    exact mem_liveBefore_of_capped hf hlive hb hp hroot
  after p x hx := by
    obtain ⟨⟨i, hi, hget⟩, hheld⟩ := LoanFacts.mem_heldIn.mp hx
    obtain ⟨r, hr, hroot⟩ := (Option.any_eq_true _ _).mp hheld
    obtain ⟨⟨row, hrow⟩, ⟨ps, hps⟩, j, hj, y, hy, hyr, halike⟩ := exists_alike hf hlive hloans hi hget hr
    obtain ⟨hb, hp⟩ := hps.mem_order hf
    obtain ⟨hafter, hkill⟩ := ExtTreeSet.mem_diff_iff.mp (ExtTreeSet.contains_iff_mem.mp hroot)
    refine ⟨y, LoanFacts.mem_heldIn.mpr ⟨⟨j, hj, hy⟩, (Option.any_eq_true _ _).mpr ⟨r, hyr, ?_⟩⟩, halike⟩
    -- a root that is replaced at the point is named as replaced with fewer visits, too
    refine ExtTreeSet.contains_iff_mem.mpr (ExtTreeSet.mem_diff_iff.mpr ⟨?_, fun h => hkill ?_⟩)
    · exact mem_liveAfter_of_capped hf hlive hb hp hafter
    · exact (Function.mem_killed_iff hrow).mpr (Function.mem_killed h)
  escaping p x hx := by
    obtain ⟨hsel, hheld⟩ := List.mem_filter.mp hx
    obtain ⟨i, hi, hget⟩ := mem_select.mp hsel
    obtain ⟨_, _, j, hj, y, hy, hyr, halike⟩ :=
      exists_alike hf hlive hloans hi hget (beq_iff_eq.mp hheld)
    exact ⟨y, List.mem_filter.mpr ⟨mem_select.mpr ⟨j, hj, hy⟩, beq_iff_eq.mpr hyr⟩, halike⟩

end Below

end Ownership
