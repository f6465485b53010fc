import Ownership.Proofs.Liveness.Stops
import Ownership.Proofs.Loans.Reaching
import Ownership.Proofs.Loans.Stops
import Ownership.Proofs.Moves.Stops
import Ownership.Proofs.Verdict

/-!
# Enough visits

Each pass is given a number of visits. From some number on, which depends on the function alone, every
pass converges, and what it finds out does not depend on the number any more.

* `analyse_of_converged`: passes that converged find out the same with more visits;
* `passes_stabilize`: from some number of visits on, everything stays the same.
-/

namespace Ownership

variable {f : Function} {types : TypeTable} {cap cap' : Nat}

theorem trackLive_of_converged (hle : cap ≤ cap')
    (h : (f.trackLive f.graph types cap).converged = true) :
    f.trackLive f.graph types cap' = f.trackLive f.graph types cap := by
  simp only [Function.trackLive, Worklist.run_of_converged hle h]

/-- Passes that converged find out the same with more visits. -/
theorem analyse_of_converged (hle : cap ≤ cap') (h : (f.analyse types cap).stalled = []) :
    f.analyse types cap' = f.analyse types cap := by
  obtain ⟨hmoves, hlive, hloans⟩ := Analysis.stalled_eq_nil.mp h
  have hmoves := Worklist.run_of_converged hle hmoves
  have hloans := Worklist.run_of_converged hle hloans
  -- the loan pass starts from what liveness found out
  simp only [Function.analyse, trackLive_of_converged hle hlive, Function.trackMoves,
    Function.trackLoans, hmoves, hloans]

/-- A report says nothing about the number of visits if every pass converged. -/
theorem Analysis.report_of_converged {a : Analysis} {s s' : Settings} (hstalled : a.stalled = [])
    (hlint : s.lintDeadCode = s'.lintDeadCode) : a.report s = a.report s' := by
  simp only [report, stalledFinding, hstalled, hlint, List.isEmpty_nil, if_true]

/-- Liveness settles first, and the loan pass is bounded for what it finds out in the end. -/
theorem exists_enough (hf : f.WellFormed) (hc : f.Closed) (types : TypeTable) :
    ∃ N, ∀ m, N ≤ m → (f.analyse types m).stalled = [] ∧ f.analyse types m = f.analyse types N := by
  obtain ⟨N₁, hmoves⟩ := trackMoves_stops hf hc types
  obtain ⟨N₂, hlive⟩ := trackLive_stops hf types
  obtain ⟨N₃, hloans⟩ := trackLoans_stops hf types (f.trackLive f.graph types N₂)
  have hsame : ∀ m, N₂ ≤ m → f.trackLive f.graph types m = f.trackLive f.graph types N₂ :=
    fun m hm => trackLive_of_converged hm (hlive N₂ le_rfl)
  have hstalled : ∀ m, N₁ + N₂ + N₃ ≤ m → (f.analyse types m).stalled = [] := by
    intro m hm
    refine Analysis.stalled_eq_nil.mpr ⟨hmoves m (by omega), hlive m (by omega), ?_⟩
    show (f.trackLoans f.graph types m (f.trackLive f.graph types m)).converged = true
    rw [hsame m (by omega)]
    exact hloans m (by omega)
  exact ⟨_, fun m hm => ⟨hstalled m hm, analyse_of_converged hm (hstalled _ le_rfl)⟩⟩

/-- **From some number of visits on, every pass converges and everything stays the same**: what the
    passes find out, the conflicts they show, and the report. -/
theorem passes_stabilize {d : Draft} (hv : d.validate types = .ok f) :
    ∃ N, (∀ m, N ≤ m →
        (f.analyse types m).moves.converged = true ∧ (f.analyse types m).live.converged = true ∧
          (f.analyse types m).loans.converged = true ∧
          (f.analyse types m).moves = (f.analyse types N).moves ∧
          (f.analyse types m).live = (f.analyse types N).live ∧
          (f.analyse types m).loans = (f.analyse types N).loans ∧
          (f.analyse types m).conflicts = (f.analyse types N).conflicts) ∧
      ∀ s s' : Settings, N ≤ s.maxVisits → N ≤ s'.maxVisits → s.lintDeadCode = s'.lintDeadCode →
        ∃ r, d.verify types s = .ok r ∧ d.verify types s' = .ok r := by
  obtain ⟨N, hN⟩ := exists_enough (Draft.wellFormed_of_validate hv) (Draft.closed_of_validate hv) types
  refine ⟨N, fun m hm => ?_, fun s s' hs hs' hlint => ?_⟩
  · obtain ⟨hstalled, he⟩ := hN m hm
    obtain ⟨hmoves, hlive, hloans⟩ := Analysis.stalled_eq_nil.mp hstalled
    exact ⟨hmoves, hlive, hloans, by rw [he], by rw [he], by rw [he], by rw [he]⟩
  · obtain ⟨hstalled, he⟩ := hN s.maxVisits hs
    have hreport : f.check types s' = f.check types s := by
      rw [Function.check, Function.check, (hN s'.maxVisits hs').2, ← he]
      exact Analysis.report_of_converged hstalled hlint.symm
    refine ⟨f.check types s, ?_, ?_⟩
    · rw [Draft.verify, hv]
      rfl
    · rw [Draft.verify, hv, ← hreport]
      rfl

/-- Three visits are not enough for a loop with a reference that is handed on from turn to turn. -/
theorem passes_stabilize_relay : relay.draft.validate relayTypes = .ok relay ∧
    ∃ N, 3 < N ∧ ∀ m, N ≤ m → (relay.analyse relayTypes m).loans.converged = true ∧
      (relay.analyse relayTypes m).conflicts = (relay.analyse relayTypes N).conflicts := by
  have hv : relay.draft.validate relayTypes = .ok relay := rfl
  have hshort : (relay.analyse relayTypes 3).loans.converged = false := by decide +kernel
  obtain ⟨N, hN, _⟩ := passes_stabilize hv
  refine ⟨hv, N, Nat.lt_of_not_le fun hle => ?_, fun m hm => ?_⟩
  · exact absurd (hN 3 hle).2.2.1 (by rw [hshort]; exact Bool.false_ne_true)
  · exact ⟨(hN m hm).2.2.1, (hN m hm).2.2.2.2.2.2⟩

end Ownership
