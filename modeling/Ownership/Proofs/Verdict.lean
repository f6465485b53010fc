import Mathlib.Data.List.Basic
import Ownership.Verify.Analysis

/-!
# The verdict

A function is fine when the checks found no conflict and every pass converged. Findings are sorted,
and of those with one key one is kept; neither loses the only finding of a kind, and dead blocks have
no say.

* `Report.ok_build`: a report is fine if no finding but lints went into it;
* `Function.ok_iff`: what a good verdict says about the analysis;
* `Function.events_eq_nil`, `Function.accesses_eq_nil`, `Function.exits_eq_nil`: the checks one by one.
-/

namespace Ownership

namespace Report

theorem mem_of_mem_firsts {seen : List (FindingKind × String × Location)} {rs : List Finding}
    {r : Finding} (h : r ∈ firsts seen rs) : r ∈ rs := by
  induction rs generalizing seen with
  | nil => exact h
  | cons q rs ih =>
    rw [firsts] at h
    split_ifs at h
    · exact List.mem_cons_of_mem _ (ih h)
    · rcases List.mem_cons.mp h with rfl | h
      · exact List.mem_cons_self
      · exact List.mem_cons_of_mem _ (ih h)

/-- Every key that was not seen before is kept. -/
theorem exists_mem_firsts {seen : List (FindingKind × String × Location)} {rs : List Finding}
    {r : Finding} (h : r ∈ rs) (hseen : r.key ∉ seen) : ∃ r' ∈ firsts seen rs, r'.key = r.key := by
  induction rs generalizing seen with
  | nil => cases h
  | cons q rs ih =>
    rw [firsts]
    by_cases hq : q.key = r.key
    · rw [if_neg (by rwa [hq, List.contains_iff_mem])]
      exact ⟨q, List.mem_cons_self, hq⟩
    · have hr : r ∈ rs := (List.mem_cons.mp h).resolve_left fun e => hq (e ▸ rfl)
      split_ifs
      · exact ih hr hseen
      · obtain ⟨r', hr', hk⟩ := ih hr (List.not_mem_cons_of_ne_of_not_mem (Ne.symm hq) hseen)
        exact ⟨r', List.mem_cons_of_mem _ hr', hk⟩

/-- **A report is fine if no finding but lints went into it.** -/
theorem ok_build (name : String) (rs : List Finding) :
    (build name rs).ok = true ↔ ∀ r ∈ rs, r.kind.isLint = true := by
  rw [ok, List.isEmpty_iff, build, List.filter_eq_nil_iff]
  constructor
  · intro h r hr
    obtain ⟨r', hr', hk⟩ := exists_mem_firsts (List.mem_mergeSort.mpr hr) List.not_mem_nil
    have hkind : r'.kind = r.kind := congrArg Prod.fst hk
    have hlint := h r' hr'
    rw [hkind] at hlint
    simpa using hlint
  · intro h r hr
    rw [h r (List.mem_mergeSort.mp (mem_of_mem_firsts hr))]
    exact Bool.false_ne_true

end Report

theorem Conflict.not_lint (c : Conflict) : c.toFinding.kind.isLint = false := by
  cases c <;> rfl

namespace Analysis

theorem stalled_eq_nil {a : Analysis} : a.stalled = [] ↔
    a.moves.converged = true ∧ a.live.converged = true ∧ a.loans.converged = true := by
  simp [stalled, List.filterMap_eq_nil_iff]

theorem ok_report (a : Analysis) (s : Settings) : (a.report s).ok = true ↔
    a.conflicts = [] ∧ a.moves.converged = true ∧ a.live.converged = true ∧
      a.loans.converged = true := by
  rw [report, Report.ok_build, ← stalled_eq_nil]
  constructor
  · intro h
    refine ⟨List.eq_nil_iff_forall_not_mem.mpr fun c hc => ?_, ?_⟩
    · have hlint := h c.toFinding (by simp only [List.mem_append, List.mem_map_of_mem hc, true_or])
      rw [c.not_lint] at hlint
      cases hlint
    · by_contra hs
      have hmem : ∃ r ∈ a.stalledFinding s.maxVisits, r.kind = .didNotConverge := by
        rw [stalledFinding, if_neg (by simpa using hs)]
        exact ⟨_, List.mem_singleton.mpr rfl, rfl⟩
      obtain ⟨r, hr, hk⟩ := hmem
      have hlint := h r (by simp only [List.mem_append, hr, true_or, or_true])
      rw [hk] at hlint
      cases hlint
  · intro hx r hr
    obtain ⟨hc, hs⟩ := hx
    rw [hc, stalledFinding, hs] at hr
    simp only [List.map_nil, List.nil_append, List.isEmpty_nil, if_true] at hr
    split_ifs at hr
    · obtain ⟨b, _, rfl⟩ := List.mem_map.mp hr
      rfl
    · cases hr

end Analysis

variable {f : Function} {types : TypeTable} {s : Settings}

/-- **What a good verdict says about the analysis**: no conflict, and every pass converged. -/
theorem Function.ok_iff : (f.check types s).ok = true ↔
    (f.analyse types s.maxVisits).conflicts = [] ∧
      (f.trackMoves f.graph types s.maxVisits).converged = true ∧
      (f.trackLive f.graph types s.maxVisits).converged = true ∧
      (f.trackLoans f.graph types s.maxVisits
        (f.trackLive f.graph types s.maxVisits)).converged = true :=
  (f.analyse types s.maxVisits).ok_report s

/-- A function with a good verdict has no event. -/
theorem Function.events_eq_nil (h : (f.check types s).ok = true) :
    (f.trackMoves f.graph types s.maxVisits).events = [] := by
  have hc : f.detect _ _ _ _ _ = [] := (Function.ok_iff.mp h).1
  rw [detect, List.append_eq_nil_iff, List.append_eq_nil_iff, List.map_eq_nil_iff] at hc
  exact hc.1.1

/-- A function with a good verdict has no conflict of an access with a loan. -/
theorem Function.accesses_eq_nil (h : (f.check types s).ok = true) :
    let live := f.trackLive f.graph types s.maxVisits
    let loans := f.trackLoans f.graph types s.maxVisits live
    (pointsConflicts loans (f.accessPoints f.graph types loans) []).1 = [] := by
  have hc : f.detect _ _ _ _ _ = [] := (Function.ok_iff.mp h).1
  rw [detect, List.append_eq_nil_iff, List.append_eq_nil_iff] at hc
  exact hc.1.2

/-- A function with a good verdict has no conflict where storage ends. -/
theorem Function.exits_eq_nil (h : (f.check types s).ok = true) {fr : Frame}
    (hfr : fr ∈ f.frames f.graph) {p : Point} (hp : p ∈ fr.exits) :
    exitConflicts (f.analyse types s.maxVisits).loans fr p = [] := by
  have hc : f.detect _ _ _ _ _ = [] := (Function.ok_iff.mp h).1
  rw [detect, List.append_eq_nil_iff] at hc
  exact List.flatMap_eq_nil_iff.mp (List.flatMap_eq_nil_iff.mp hc.2 fr hfr) p hp

end Ownership
