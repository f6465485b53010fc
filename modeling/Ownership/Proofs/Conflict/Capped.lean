import Ownership.Proofs.Conflict.Silence
import Ownership.Proofs.Loans.Below
import Ownership.Proofs.Moves.Exact

/-!
# No alarm from fewer visits

A function that is fine when every pass converges raises no alarm when the passes are stopped earlier:
what they found by then only ever shows conflicts that complete passes show as well.

* `misses_of_mem_events`: an event that is found early is a read along some route that finds something
  missing;
* `LoanFacts.Below.accesses_silent`, `LoanFacts.Below.points_silent`, `LoanFacts.Below.exits_silent`: the
  checks are silent about facts that are below facts about which they are silent;
* `capped_raises_no_alarm`: with fewer visits nothing is reported but that they were used up.
-/

namespace Ownership

variable {f : Function} {types : TypeTable} {cap : Nat}

/-! ## 1. Missing values -/

/-- The states of a row have outcomes that occur along routes only. -/
theorem moveRow_sub_collect (hf : f.WellFormed)
    {rule : Point → Set (String × Option Path) → Set (String × Option Path)}
    (h : IsMoveRule f types rule) {p : Point} {m : MoveMap} {es : List Effect}
    (hrow : (p, m, es) ∈ f.moveRows types cap) :
    f.Reaches p ∧ es = f.effectsAt types p ∧ m.outcomes ⊆ f.collect rule f.entryStates.outcomes p := by
  obtain ⟨b, _, hrow⟩ := List.mem_flatMap.mp hrow
  obtain ⟨m₀, hm₀, hp, rfl, rfl⟩ := Function.mem_moveRowsOf.mp hrow
  obtain ⟨rfl, hstmt⟩ := Function.mem_pointsOf.mp hp
  have hin : (f.lastMoves types cap).insOutcomes p.block = some m₀.outcomes := congrArg _ hm₀
  obtain ⟨hreach, hsub⟩ := (movesPass h).sub_collect hf (startInvariant hf) hin
  refine ⟨hreach.within hstmt, rfl, ?_⟩
  rw [statesThrough_outcomes h, ← through_collect (movesPass h).additive hreach hstmt]
  exact through_mono (movesPass h).additive _ _ hsub

/-- **An event, found with any number of visits, is a read along some route that finds something
    missing.** -/
theorem misses_of_mem_events (hf : f.WellFormed) {ev : MoveEvent}
    (hev : ev ∈ (f.trackMoves f.graph types cap).events) :
    ∃ ps, f.Route ev.point ps ∧ f.Misses types ps ev.point ev.place ev.action := by
  obtain ⟨rule, h⟩ := exists_moveRule f types
  obtain ⟨m, es, hrow, done, rest, he, hgone⟩ := mem_events_iff_row.mp ⟨ev, hev, rfl, rfl, rfl⟩
  obtain ⟨hreach, hes, hsub⟩ := moveRow_sub_collect hf h hrow
  obtain ⟨r, hr, hrule⟩ := Effect.exists_rule_all done
  obtain ⟨q, hq, ho⟩ := MoveState.gone_overlaps_iff.mp hgone
  -- the outcome part of the way through the effects occurs along one of the routes
  have hmem : (ev.place.name, some q) ∈ (Effect.applyAll m done).outcomes := hq
  rw [hrule] at hmem
  have hcol := hr.mono hsub hmem
  rw [hr.map_collect hreach] at hcol
  obtain ⟨ps, hps, hx⟩ := hcol
  rw [← statesAlong_outcomes h, ← hrule] at hx
  exact ⟨ps, hps, done, rest, hes.symm.trans he, MoveState.gone_overlaps_iff.mpr ⟨q, hx, ho⟩⟩

/-! ## 2. Silent checks -/

namespace Loan.Alike

variable {x y : Loan} (h : x.Alike y)

include h

theorem isTouched_eq (p : Place) : x.isTouched p = y.isTouched p := by
  unfold Loan.isTouched Loan.isThroughOldValue
  rw [h.place, h.holder]

theorem isOverwritten_eq (p : Place) : x.isOverwritten p = y.isOverwritten p := by
  unfold Loan.isOverwritten
  rw [h.isTouched_eq, h.place]

theorem excludes_eq (new : Loan) : x.excludes new = y.excludes new := by
  unfold Loan.excludes
  rw [h.origin, h.kind]

end Loan.Alike

/-- Loans that are not in the way of a new one raise no conflict, whatever was reported before. -/
theorem borrowConflicts_of_silence {pt : Point} {new : Loan} {olds : List Loan} {seen : Pairs}
    (h : ∀ old ∈ olds, (old.isTouched new.place && old.excludes new) = false) :
    borrowConflicts pt new olds seen = ([], seen) := by
  induction olds with
  | nil => rfl
  | cons o olds ih =>
    rw [borrowConflicts, h o List.mem_cons_self, Bool.false_and]
    exact ih fun old hold => h old (List.mem_cons_of_mem _ hold)

namespace LoanFacts.Below

variable {facts facts' : LoanFacts} (h : facts.Below facts') {pt : Point}

include h

/-- A check of the loans in use that finds none in the larger facts finds none in the smaller. -/
theorem filter_before (check : Loan → Bool) (hcheck : ∀ x y : Loan, x.Alike y → check x = check y)
    {here : List Loan} (hnone : (facts'.activeBefore pt ++ here).filter check = []) :
    (facts.activeBefore pt ++ here).filter check = [] := by
  rw [List.filter_append, List.append_eq_nil_iff] at hnone ⊢
  refine ⟨List.filter_eq_nil_iff.mpr fun x hx => ?_, hnone.2⟩
  obtain ⟨y, hy, halike⟩ := h.before pt x hx
  rw [hcheck x y halike]
  exact List.filter_eq_nil_iff.mp hnone.1 y hy

theorem filter_after (check : Loan → Bool) (hcheck : ∀ x y : Loan, x.Alike y → check x = check y)
    (hnone : (facts'.activeAfter pt).filter check = []) : (facts.activeAfter pt).filter check = [] := by
  refine List.filter_eq_nil_iff.mpr fun x hx => ?_
  obtain ⟨y, hy, halike⟩ := h.after pt x hx
  rw [hcheck x y halike]
  exact List.filter_eq_nil_iff.mp hnone y hy

theorem access_silent {here : List Loan} {a : Access}
    (hnone : (accessConflicts facts' pt here [] a).1 = []) :
    accessConflicts facts pt here [] a = ([], []) := by
  cases a with
  | read p =>
    have hfilter := h.filter_before (fun l => l.isTouched p && l.kind == .unique)
      (fun x y he => by rw [he.isTouched_eq, he.kind]) (List.map_eq_nil_iff.mp hnone)
    rw [accessConflicts, hfilter]
    rfl
  | move p =>
    have hfilter := h.filter_before (fun l => l.isTouched p)
      (fun x y he => he.isTouched_eq p) (List.map_eq_nil_iff.mp hnone)
    rw [accessConflicts, hfilter]
    rfl
  | borrow p new =>
    refine borrowConflicts_of_silence fun old hold => ?_
    have hall := (borrowConflicts_nil hnone).2
    rcases List.mem_append.mp hold with hold | hold
    · obtain ⟨y, hy, halike⟩ := h.before pt old hold
      rw [halike.isTouched_eq, halike.excludes_eq]
      exact hall y (List.mem_append_left _ hy)
    · exact hall old (List.mem_append_right _ hold)
  | write p =>
    have hfilter := h.filter_after (fun l => l.isOverwritten p)
      (fun x y he => he.isOverwritten_eq p) (List.map_eq_nil_iff.mp hnone)
    rw [accessConflicts, hfilter]
    rfl

theorem accesses_silent {as : List Access} {here : List Loan}
    (hnone : (accessesConflicts facts' pt here as []).1 = []) :
    accessesConflicts facts pt here as [] = ([], []) := by
  induction as generalizing here with
  | nil => rfl
  | cons a as ih =>
    rw [accessesConflicts_cons.1, List.append_eq_nil_iff] at hnone
    obtain ⟨hone, hrest⟩ := hnone
    rw [accessConflicts_seen hone] at hrest
    have hfirst := h.access_silent hone
    refine Prod.ext ?_ ?_
    · rw [accessesConflicts_cons.1, hfirst, ih hrest]
      rfl
    · rw [accessesConflicts_cons.2, hfirst, ih hrest]

theorem points_silent {rows : List (Point × List Access)}
    (hnone : (pointsConflicts facts' rows []).1 = []) : pointsConflicts facts rows [] = ([], []) := by
  have hall := pointsConflicts_nil hnone
  clear hnone
  induction rows with
  | nil => rfl
  | cons r rows ih =>
    have hone := h.accesses_silent (hall r.1 r.2 List.mem_cons_self)
    have hrest := ih fun pt as hmem => hall pt as (List.mem_cons_of_mem _ hmem)
    refine Prod.ext ?_ ?_
    · rw [pointsConflicts_cons.1, hone, hrest]
      rfl
    · rw [pointsConflicts_cons.2, hone, hrest]

theorem exits_silent {fr : Frame} (hnone : exitConflicts facts' fr pt = []) :
    exitConflicts facts fr pt = [] := by
  unfold exitConflicts at hnone ⊢
  split at hnone
  · refine List.map_eq_nil_iff.mpr (List.filter_eq_nil_iff.mpr fun x hx => ?_)
    obtain ⟨y, hy, halike⟩ := h.escaping pt x hx
    rw [halike.place]
    exact List.filter_eq_nil_iff.mp (List.map_eq_nil_iff.mp hnone) y hy
  · refine List.map_eq_nil_iff.mpr (h.filter_after _ (fun x y he => ?_) (List.map_eq_nil_iff.mp hnone))
    rw [he.place]

/-- The accesses of a function do not depend on the loans in use. -/
theorem accessPoints_eq (f : Function) (types : TypeTable) :
    f.accessPoints f.graph types facts = f.accessPoints f.graph types facts' := by
  unfold Function.accessPoints
  simp only [h.issued]

end LoanFacts.Below

/-! ## 3. The verdict -/

/-- A function that is fine shows no conflict with any number of visits. -/
theorem conflicts_of_ok (hf : f.WellFormed) {s : Settings} (hok : (f.check types s).ok = true)
    (cap : Nat) : (f.analyse types cap).conflicts = [] := by
  obtain ⟨_, _, hlive, hloans⟩ := Function.ok_iff.mp hok
  have hbelow : LoanFacts.Below (f.analyse types cap).loans (f.analyse types s.maxVisits).loans :=
    analyse_below hf hlive hloans
  have hevents : (f.trackMoves f.graph types cap).events = [] := by
    refine List.eq_nil_iff_forall_not_mem.mpr fun ev hev => ?_
    obtain ⟨ps, hps, hmiss⟩ := misses_of_mem_events hf hev
    exact not_misses_of_ok hf hok hps _ _ hmiss
  have haccesses : (pointsConflicts (f.analyse types cap).loans
      (f.accessPoints f.graph types (f.analyse types cap).loans) []).1 = [] := by
    rw [hbelow.accessPoints_eq]
    exact congrArg Prod.fst (hbelow.points_silent (Function.accesses_eq_nil hok))
  have hexits : ((f.frames f.graph).flatMap fun fr =>
      fr.exits.flatMap (exitConflicts (f.analyse types cap).loans fr)) = [] := by
    refine List.flatMap_eq_nil_iff.mpr fun fr hfr => List.flatMap_eq_nil_iff.mpr fun p hp => ?_
    exact hbelow.exits_silent (Function.exits_eq_nil hok hfr hp)
  show f.detect _ _ _ _ _ = []
  rw [Function.detect, hevents]
  exact List.append_eq_nil_iff.mpr ⟨List.append_eq_nil_iff.mpr ⟨rfl, haccesses⟩, hexits⟩

/-- What is reported about a function that shows no conflict. -/
theorem Analysis.kind_of_mem_conflicts {a : Analysis} (ha : a.conflicts = []) {s : Settings} {x : Finding}
    (hx : x ∈ (a.report s).conflicts) : x.kind = .didNotConverge := by
  rw [report, Report.build, ha] at hx
  obtain ⟨hx, hlint⟩ := List.mem_filter.mp hx
  have hmem := List.mem_mergeSort.mp (Report.mem_of_mem_firsts hx)
  rw [List.map_nil, List.nil_append] at hmem
  rcases List.mem_append.mp hmem with hstalled | hdead
  · rw [stalledFinding] at hstalled
    split_ifs at hstalled
    · cases hstalled
    · rw [List.mem_singleton.mp hstalled]
  · split_ifs at hdead
    · obtain ⟨b, _, rfl⟩ := List.mem_map.mp hdead
      cases hlint
    · cases hdead

/-- **Fewer visits raise no alarm.** If a draft is checked with as many visits as every pass needs and
    no conflict is reported, then with any other number of visits no conflict is reported but the one
    that the visits were used up. -/
theorem capped_raises_no_alarm {d : Draft} {s : Settings} {r : Report}
    (hr : d.verify types s = .ok r) (hnone : r.conflicts = []) (s' : Settings) :
    ∃ r', d.verify types s' = .ok r' ∧ ∀ x ∈ r'.conflicts, x.kind = .didNotConverge := by
  cases hv : d.validate types with
  | error e =>
    rw [Draft.verify, hv] at hr
    cases hr
  | ok f =>
    rw [Draft.verify, hv] at hr
    cases hr
    have hok : (f.check types s).ok = true := List.isEmpty_iff.mpr hnone
    refine ⟨f.check types s', by rw [Draft.verify, hv]; rfl, fun x hx => ?_⟩
    exact Analysis.kind_of_mem_conflicts
      (conflicts_of_ok (Draft.wellFormed_of_validate hv) hok s'.maxVisits) hx

/-- A loop that is fine with twenty visits: three are too few for it, and that is all that is said. -/
theorem capped_raises_no_alarm_relay :
    (∃ r, relay.draft.verify relayTypes { maxVisits := 20 } = .ok r ∧ r.conflicts = []) ∧
      ∃ r', relay.draft.verify relayTypes { maxVisits := 3 } = .ok r' ∧ r'.conflicts ≠ [] ∧
        ∀ x ∈ r'.conflicts, x.kind = .didNotConverge := by
  have hfine : (relay.check relayTypes { maxVisits := 20 }).conflicts = [] :=
    List.isEmpty_iff.mp (by decide +kernel)
  have hshort : ¬ (relay.check relayTypes { maxVisits := 3 }).ok = true := by decide +kernel
  have hr : relay.draft.verify relayTypes { maxVisits := 20 } =
      .ok (relay.check relayTypes { maxVisits := 20 }) := rfl
  obtain ⟨r', hr', hall⟩ := capped_raises_no_alarm hr hfine { maxVisits := 3 }
  refine ⟨⟨_, hr, hfine⟩, r', hr', fun hnil => hshort ?_, hall⟩
  cases hr'
  exact List.isEmpty_iff.mpr hnil

end Ownership
