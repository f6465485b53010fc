import Ownership.Proofs.Loans.Reaching

/-!
# Loans in use behind a point

The loans that a write has to respect are those in use behind it, through a root that the write does
not replace; the loans that leave the function are those of the return place. Both are read off the
rows of the pass, and both miss no token:

* `Function.mem_killed`: the roots that a row names as replaced are replaced by the statement;
* `exists_activeAfter_of_holds`: a token that a statement leaves alone and whose holder is live behind
  it is a loan in use there;
* `Function.mem_liveBefore_return`: at a return the return place is live, if anything is;
* `exists_escaping_of_holds`: at a return every token of the return place is a loan that leaves.
-/

namespace Ownership

open Std (ExtTreeMap ExtTreeSet)

/-! ## 1. Replaced roots -/

namespace Function

variable {f : Function} {types : TypeTable} {live : LiveFacts} {cap : Nat}

/-- The roots that a row names as replaced are those that the statement at its point replaces. -/
def RowsKill (f : Function) (rows : List (Point × LoanPoint)) : Prop :=
  ∀ row ∈ rows, ∀ r, r ∈ row.2.killed ↔ ∃ s, f.statementAt? row.1 = some s ∧ r ∈ s.killed

theorem RowsKill.nil : f.RowsKill [] := fun _ hrow => absurd hrow List.not_mem_nil

theorem RowsKill.append {xs ys : List (Point × LoanPoint)} (hx : f.RowsKill xs) (hy : f.RowsKill ys) :
    f.RowsKill (xs ++ ys) :=
  fun row hrow => (List.mem_append.mp hrow).elim (hx row) (hy row)

theorem loanSteps_kill {b : Nat} (es : List (Statement × Point)) (hes : es ⊆ f.statementsOf b) :
    ∀ (table : List Loan) (ids : LoanIds), f.RowsKill (f.loanSteps types live es table ids).2.2 := by
  induction es with
  | nil => exact fun _ _ => .nil
  | cons e es ih =>
    obtain ⟨s, p⟩ := e
    intro table ids row hrow
    have hs : f.statementAt? p = some s := (mem_statementsOf.mp (hes List.mem_cons_self)).2
    rcases List.mem_cons.mp hrow with rfl | hrow
    · intro r
      simp only [hs, Option.some.injEq, exists_eq_left']
    · exact ih (fun _ he => hes (List.mem_cons_of_mem _ he)) _ _ row hrow

theorem loanBlock_kill (b : Nat) (table : List Loan) (ids : LoanIds) :
    f.RowsKill (f.loanBlock types live b table ids).2.2 := by
  refine (loanSteps_kill (f.statementsOf b) (fun _ he => he) table ids).append fun row hrow r => ?_
  -- the row of the terminator names no root
  have hnone : f.statementAt? (f.exitOf b) = none := List.getElem?_eq_none (Nat.le_refl _)
  rw [List.mem_singleton.mp hrow, hnone]
  exact iff_of_false ExtTreeSet.not_mem_empty fun ⟨s, hs, _⟩ => nomatch hs

theorem replayLoans_kill (ins : ExtTreeMap Nat LoanIds) (bs : List Nat) :
    ∀ table : List Loan, f.RowsKill (f.replayLoans types live ins bs table).2 := by
  induction bs with
  | nil => exact fun _ => .nil
  | cons b bs ih =>
    intro table
    unfold replayLoans
    cases ins.get? b with
    | none => exact ih table
    | some ids => exact (loanBlock_kill b table ids).append (ih _)

/-- Where something is written down, the facts name as replaced what the statement replaces. -/
theorem mem_killed_iff {p : Point} {row : LoanPoint}
    (hget : (f.trackLoans f.graph types cap live).points.get? p = some row) {r : String} :
    r ∈ (f.trackLoans f.graph types cap live).killed p ↔
      ∃ s, f.statementAt? p = some s ∧ r ∈ s.killed := by
  unfold LoanFacts.killed
  rw [hget]
  rw [trackLoans_points] at hget
  rcases mem_of_getElem?_rows Prod.fst Prod.snd hget with ⟨e, he, rfl, rfl⟩ | hempty
  · exact replayLoans_kill _ _ _ e he r
  · cases hempty.symm.trans ExtTreeMap.getElem?_empty

/-- A root that the facts name as replaced at a point is replaced by the statement there. -/
theorem mem_killed {p : Point} {r : String} (h : r ∈ (f.trackLoans f.graph types cap live).killed p) :
    ∃ s, f.statementAt? p = some s ∧ r ∈ s.killed := by
  cases hget : (f.trackLoans f.graph types cap live).points.get? p with
  | none =>
    unfold LoanFacts.killed at h
    rw [hget] at h
    exact absurd h ExtTreeSet.not_mem_empty
  | some row => exact (mem_killed_iff hget).mp h

end Function

/-! ## 2. Behind a statement -/

section Behind

variable {f : Function} {types : TypeTable} {cap : Nat} (hf : f.WellFormed)
  (hlive : (f.analyse types cap).live.converged = true)
  (hloans : (f.analyse types cap).loans.converged = true) {p : Point} {ps : List Point} {t : Token}

include hf hlive hloans

/-- A token that the statement leaves alone, with a holder that is live behind it, is a loan in use
    there. -/
theorem exists_activeAfter_of_holds (hr : f.Route p ps) (h : f.Holds types ps t)
    (he : ∀ s, f.statementAt? p = some s → ¬ s.Ends t.holder)
    (hafter : t.holder ∈ (f.analyse types cap).live.liveAfter p) :
    ∃ x ∈ (f.analyse types cap).loans.activeAfter p, x.hold? = some t.toHold := by
  obtain ⟨hb, hp⟩ := hr.mem_order hf
  have hbefore : t.holder ∈ (f.analyse types cap).live.liveBefore p :=
    live_before_of_kept hf hb hp he hafter
  obtain ⟨x, hx, hhold⟩ := exists_activeBefore_of_holds hf hlive hloans hr h hbefore
  have hreach := (LoanFacts.mem_heldIn.mp hx).1
  have hkeep : t.holder ∉ (f.analyse types cap).loans.killed p := by
    intro hkill
    obtain ⟨s, hs, hk⟩ := Function.mem_killed hkill
    exact he s hs (Statement.ends_of_mem_killed hk)
  refine ⟨x, LoanFacts.mem_heldIn.mpr ⟨hreach, (Loan.isHeldIn_iff hhold _).mpr ?_⟩, hhold⟩
  exact ExtTreeSet.mem_diff_iff.mpr ⟨hafter, hkeep⟩

end Behind

/-! ## 3. At a return -/

/-- The function returns at the point. -/
def Function.ReturnsAt (f : Function) (p : Point) : Prop :=
  p = f.exitOf p.block ∧ (f.block p.block).terminator = .ret

section Return

variable {f : Function} {types : TypeTable} {cap : Nat} (hf : f.WellFormed)
  (hlive : (f.analyse types cap).live.converged = true) {p : Point} {ps : List Point}
  (hr : f.Route p ps) (hret : f.ReturnsAt p)

include hf hlive hr hret

/-- At a return the return place is live, if it is tracked, and nothing else. -/
theorem Function.mem_liveBefore_return {r : String} :
    r ∈ (f.analyse types cap).live.liveBefore p ↔ r = f.result.name ∧ r ∈ f.tracked types := by
  obtain ⟨hb, hp⟩ := hr.mem_order hf
  obtain ⟨hexit, hterm⟩ := hret
  have hnone : f.statementAt? p = none := by
    rw [hexit]
    exact List.getElem?_eq_none (Nat.le_refl _)
  have hend : r ∉ (f.trackLive f.graph types cap).liveAfter p := by
    intro hafter
    obtain ⟨q, hstep, _⟩ := (mem_liveAfter hf hlive hb hp).mp hafter
    rw [hexit, Function.step_exit_iff, hterm] at hstep
    obtain ⟨_, ht, _⟩ := hstep
    cases ht
  have huses : r ∈ f.usesAt (f.tracked types) p ↔ r = f.result.name ∧ r ∈ f.tracked types := by
    unfold Function.usesAt
    rw [hnone, hterm]
    exact mem_ofList_filter.trans (and_congr_left fun _ => List.mem_singleton)
  refine (Function.mem_liveBefore_step hf hb hp).trans ?_
  rw [huses]
  exact or_iff_left fun h => hend h.2

/-- At a return a loan is in use only if it leaves the function with the return place. -/
theorem mem_escaping_of_activeBefore {x : Loan}
    (hx : x ∈ (f.analyse types cap).loans.activeBefore p) :
    x ∈ (f.analyse types cap).loans.escaping p ∧ x.holder = some f.result.name := by
  obtain ⟨hreach, hheld⟩ := LoanFacts.mem_heldIn.mp hx
  obtain ⟨r, hxr, hlive'⟩ := (Option.any_eq_true _ _).mp hheld
  have hname : r = f.result.name :=
    ((Function.mem_liveBefore_return hf hlive hr hret).mp hlive').1
  have hholder : x.holder = some f.result.name := hname ▸ hxr
  exact ⟨List.mem_filter.mpr ⟨mem_select.mpr hreach, beq_iff_eq.mpr hholder⟩, hholder⟩

/-- At a return every token of a tracked return place is a loan that leaves the function. -/
theorem exists_escaping_of_holds (hloans : (f.analyse types cap).loans.converged = true) {t : Token}
    (h : f.Holds types ps t) (ht : t.holder = f.result.name)
    (htracked : f.result.name ∈ f.tracked types) :
    ∃ x ∈ (f.analyse types cap).loans.escaping p, x.hold? = some t.toHold := by
  have hbefore : t.holder ∈ (f.analyse types cap).live.liveBefore p :=
    (Function.mem_liveBefore_return hf hlive hr hret).mpr ⟨ht, ht ▸ htracked⟩
  obtain ⟨x, hx, hhold⟩ := exists_activeBefore_of_holds hf hlive hloans hr h hbefore
  exact ⟨x, (mem_escaping_of_activeBefore hf hlive hr hret hx).1, hhold⟩

end Return

end Ownership
