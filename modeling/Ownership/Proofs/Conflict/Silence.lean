import Ownership.Proofs.Loans.Reaching
import Ownership.Proofs.Verdict

/-!
# What it means that no conflict was found

The detector leaves out pairs that were reported before. If it reports nothing, nothing was left out
either: every access was looked at against every loan in use.

* `borrowConflicts_nil`, `accessesConflicts_nil`, `pointsConflicts_nil`: silence of the parts;
* `Function.issued_borrows`: a statement makes one loan for each of its borrows, in order;
* `Function.not_excluded_of_ok`: with a good verdict, no loan in use and no loan made earlier in the
  same statement is in the way of a new one.
-/

namespace Ownership

/-! ## 1. The parts of the detector -/

/-- A new loan raises conflicts about loans in its way, and no others. -/
theorem of_mem_borrowConflicts {pt : Point} {new : Loan} {olds : List Loan} {seen : Pairs} {c : Conflict}
    (h : c ∈ (borrowConflicts pt new olds seen).1) :
    ∃ old ∈ olds, c = .borrowed pt old new ∧ old.isTouched new.place = true ∧ old.excludes new = true := by
  induction olds generalizing seen with
  | nil => cases h
  | cons o olds ih =>
    have hlater : ∀ {seen}, c ∈ (borrowConflicts pt new olds seen).1 → ∃ old ∈ o :: olds,
        c = .borrowed pt old new ∧ old.isTouched new.place = true ∧ old.excludes new = true := by
      intro seen h
      obtain ⟨old, hold, hc⟩ := ih h
      exact ⟨old, List.mem_cons_of_mem _ hold, hc⟩
    rw [borrowConflicts] at h
    split_ifs at h with hcond
    · rw [Bool.and_eq_true, Bool.and_eq_true] at hcond
      rcases List.mem_cons.mp h with rfl | h
      · exact ⟨o, List.mem_cons_self, rfl, hcond.1⟩
      · exact hlater h
    · exact hlater h

theorem borrowConflicts_nil {pt : Point} {new : Loan} {olds : List Loan}
    (h : (borrowConflicts pt new olds []).1 = []) :
    (borrowConflicts pt new olds []).2 = [] ∧
      ∀ old ∈ olds, (old.isTouched new.place && old.excludes new) = false := by
  induction olds with
  | nil => exact ⟨rfl, fun old hold => absurd hold List.not_mem_nil⟩
  | cons o olds ih =>
    rw [borrowConflicts] at h ⊢
    split_ifs at h ⊢ with hc
    rw [List.contains_nil, Bool.not_false, Bool.and_true, Bool.not_eq_true] at hc
    obtain ⟨hseen, hrest⟩ := ih h
    refine ⟨hseen, fun old hold => ?_⟩
    rcases List.mem_cons.mp hold with rfl | hold
    · exact hc
    · exact hrest old hold

/-- The loan that an access makes. -/
def Access.loan? : Access → Option Loan
  | .borrow _ l => some l
  | _ => none

theorem accessConflicts_seen {facts : LoanFacts} {pt : Point} {here : List Loan} {a : Access}
    (h : (accessConflicts facts pt here [] a).1 = []) : (accessConflicts facts pt here [] a).2 = [] := by
  cases a with
  | borrow p new => exact (borrowConflicts_nil h).1
  | read p => rfl
  | move p => rfl
  | write p => rfl

theorem accessesConflicts_cons {facts : LoanFacts} {pt : Point} {here : List Loan} {a : Access}
    {as : List Access} {seen : Pairs} :
    (accessesConflicts facts pt here (a :: as) seen).1 = (accessConflicts facts pt here seen a).1 ++
        (accessesConflicts facts pt (here ++ a.loan?.toList) as
          (accessConflicts facts pt here seen a).2).1 ∧
      (accessesConflicts facts pt here (a :: as) seen).2 =
        (accessesConflicts facts pt (here ++ a.loan?.toList) as
          (accessConflicts facts pt here seen a).2).2 := by
  have hnone : ∀ c : Access, c.loan? = none → here ++ c.loan?.toList = here := by
    intro c hc
    rw [hc, Option.toList_none, List.append_nil]
  cases a with
  | borrow p l => exact ⟨rfl, rfl⟩
  | read p =>
    rw [hnone _ rfl]
    exact ⟨rfl, rfl⟩
  | move p =>
    rw [hnone _ rfl]
    exact ⟨rfl, rfl⟩
  | write p =>
    rw [hnone _ rfl]
    exact ⟨rfl, rfl⟩

/-- Accesses that raise no conflict raise none one by one, each with the loans made before it. -/
theorem accessesConflicts_nil {facts : LoanFacts} {pt : Point} {as : List Access} {here : List Loan}
    (h : (accessesConflicts facts pt here as []).1 = []) :
    (accessesConflicts facts pt here as []).2 = [] ∧
      ∀ done a rest, as = done ++ a :: rest →
        (accessConflicts facts pt (here ++ done.filterMap Access.loan?) [] a).1 = [] := by
  induction as generalizing here with
  | nil =>
    refine ⟨rfl, fun done a rest he => ?_⟩
    cases done with
    | nil => cases he
    | cons d done => cases he
  | cons c as ih =>
    rw [accessesConflicts_cons.1, List.append_eq_nil_iff] at h
    obtain ⟨hc, hrest⟩ := h
    rw [accessConflicts_seen hc] at hrest
    obtain ⟨hseen, hall⟩ := ih hrest
    refine ⟨?_, fun done a rest he => ?_⟩
    · rw [accessesConflicts_cons.2, accessConflicts_seen hc]
      exact hseen
    · cases done with
      | nil =>
        cases he
        rw [List.filterMap_nil, List.append_nil]
        exact hc
      | cons d done =>
        cases he
        have hlater := hall done a rest rfl
        rw [List.append_assoc] at hlater
        rw [List.filterMap_cons]
        cases hd : c.loan? with
        | none =>
          rw [hd] at hlater
          exact hlater
        | some l =>
          rw [hd] at hlater
          exact hlater

theorem pointsConflicts_cons {facts : LoanFacts} {r : Point × List Access}
    {rows : List (Point × List Access)} {seen : Pairs} :
    (pointsConflicts facts (r :: rows) seen).1 = (accessesConflicts facts r.1 [] r.2 seen).1 ++
        (pointsConflicts facts rows (accessesConflicts facts r.1 [] r.2 seen).2).1 ∧
      (pointsConflicts facts (r :: rows) seen).2 =
        (pointsConflicts facts rows (accessesConflicts facts r.1 [] r.2 seen).2).2 := ⟨rfl, rfl⟩

theorem pointsConflicts_nil {facts : LoanFacts} {rows : List (Point × List Access)}
    (h : (pointsConflicts facts rows []).1 = []) :
    ∀ pt as, (pt, as) ∈ rows → (accessesConflicts facts pt [] as []).1 = [] := by
  induction rows with
  | nil => exact fun pt as hmem => absurd hmem List.not_mem_nil
  | cons r rows ih =>
    rw [pointsConflicts_cons.1, List.append_eq_nil_iff] at h
    obtain ⟨hq, hrest⟩ := h
    rw [(accessesConflicts_nil hq).1] at hrest
    intro pt as hmem
    rcases List.mem_cons.mp hmem with he | hmem
    · cases he
      exact hq
    · exact ih hrest pt as hmem

/-! ## 2. The loans of a statement -/

/-- The entries of a list of groups under one key are those of its group. -/
theorem filter_groups {κ β : Type} [DecidableEq κ] {groups : List (κ × List β)}
    (hd : (groups.map Prod.fst).Nodup) {k : κ} {ys : List β} (h : (k, ys) ∈ groups) :
    (groups.flatMap fun g => g.2.map fun y => (g.1, y)).filter (fun e => e.1 == k) =
      ys.map fun y => (k, y) := by
  have hkeep : ∀ zs : List β, (zs.map fun z => (k, z)).filter (fun e => e.1 == k) =
      zs.map fun z => (k, z) := by
    intro zs
    refine List.filter_eq_self.mpr fun e he => ?_
    obtain ⟨z, _, rfl⟩ := List.mem_map.mp he
    exact beq_self_eq_true k
  have hlose : ∀ {j : κ} (zs : List β), j ≠ k →
      (zs.map fun z => (j, z)).filter (fun e => e.1 == k) = [] := by
    intro j zs hjk
    refine List.filter_eq_nil_iff.mpr fun e he => ?_
    obtain ⟨z, _, rfl⟩ := List.mem_map.mp he
    simpa using hjk
  induction groups with
  | nil => cases h
  | cons g groups ih =>
    rw [List.map_cons, List.nodup_cons] at hd
    rw [List.flatMap_cons, List.filter_append]
    rcases List.mem_cons.mp h with rfl | h
    · have hrest : (groups.flatMap fun g => g.2.map fun y => (g.1, y)).filter (fun e => e.1 == k) = [] := by
        refine List.filter_eq_nil_iff.mpr fun e he hek => ?_
        obtain ⟨g', hg', he⟩ := List.mem_flatMap.mp he
        obtain ⟨z, _, rfl⟩ := List.mem_map.mp he
        exact hd.1 (List.mem_map.mpr ⟨g', hg', beq_iff_eq.mp hek⟩)
      rw [hrest, List.append_nil]
      exact hkeep ys
    · have hne : g.1 ≠ k := fun e => hd.1 (e ▸ List.mem_map_of_mem h)
      rw [hlose _ hne, List.nil_append]
      exact ih hd.2 h

namespace Function

variable {f : Function} {types : TypeTable} {tracked : Names}

/-- The borrows of all statements, statement by statement. -/
def borrowGroups (f : Function) (types : TypeTable) (tracked : Names) :
    List (Point × List (Place × LoanKind × Option String)) :=
  f.graph.reachable.flatMap fun b => (f.statementsOf b).map fun e => (e.2, f.borrows types tracked e.1)

theorem nodup_borrowGroups : ((f.borrowGroups types tracked).map Prod.fst).Nodup := by
  refine nodup_rows (List.Nodup.filter _ List.nodup_range) (fun b => ?_) fun b r hr => ?_
  · rw [List.map_map]
    have hpoints : (f.statementsOf b).map (Prod.fst ∘ fun e => (e.2, f.borrows types tracked e.1)) =
        (List.range (f.block b).statements.length).map (Point.mk b) := by
      refine List.ext_getElem (by simp [statementsOf]) fun i h _ => ?_
      simp [statementsOf]
    rw [hpoints]
    exact List.Nodup.map (fun _ _ h => (Point.mk.inj h).2) List.nodup_range
  · obtain ⟨e, he, rfl⟩ := List.mem_map.mp hr
    obtain ⟨_, _, rfl⟩ := List.mem_map.mp he
    rfl

/-- A statement makes one loan for each of its borrows, in order. -/
theorem issued_borrows {p : Point} {s : Statement} (hb : p.block ∈ f.graph.reachable)
    (hs : f.statementAt? p = some s) :
    (Loan.issuedAtPoint (f.issueLoans types tracked f.graph) p).map
      (fun l => (l.place, l.kind, l.holder)) = f.borrows types tracked s := by
  have hgroup : (p, f.borrows types tracked s) ∈ f.borrowGroups types tracked :=
    List.mem_flatMap.mpr ⟨p.block, hb, List.mem_map.mpr ⟨_, mem_statementsOf.mpr ⟨rfl, hs⟩, rfl⟩⟩
  have hrows := filter_groups nodup_borrowGroups hgroup
  have hown : ∀ l ∈ f.issueLoans types tracked f.graph, l.origin = l.id :=
    (issueLoans_table tracked f.graph).own
  have hissued : Loan.issuedAtPoint (f.issueLoans types tracked f.graph) p =
      (f.issueLoans types tracked f.graph).filter fun l => l.issuedAt == p := by
    refine List.filter_congr fun l hl => ?_
    simp [Loan.isDerived, hown l hl]
  have hmade : (f.graph.reachable.flatMap fun b => (f.statementsOf b).flatMap fun e =>
      (f.borrows types tracked e.1).map fun row => (e.2, row)) =
      (f.borrowGroups types tracked).flatMap fun g => g.2.map fun y => (g.1, y) := by
    rw [borrowGroups, List.flatMap_assoc]
    refine List.flatMap_congr fun b _ => ?_
    rw [List.flatMap_map]
  have hzip : ∀ made : List (Point × Place × LoanKind × Option String),
      ((made.zipIdx.map fun x => (⟨x.2, x.1.2.1, x.1.2.2.1, x.1.1, x.1.2.2.2, x.2⟩ : Loan)).filter
        fun l => l.issuedAt == p).map (fun l => (l.place, l.kind, l.holder)) =
        (made.filter fun e => e.1 == p).map Prod.snd := by
    intro made
    rw [List.filter_map, List.map_map]
    conv_rhs => rw [← List.zipIdx_map_fst 0 made, List.filter_map, List.map_map]
    rfl
  rw [hissued, issueLoans]
  refine (hzip _).trans ?_
  rw [hmade, hrows, List.map_map]
  exact List.map_id _

theorem issued_length {p : Point} {s : Statement} (hb : p.block ∈ f.graph.reachable)
    (hs : f.statementAt? p = some s) :
    (Loan.issuedAtPoint (f.issueLoans types tracked f.graph) p).length =
      (f.borrows types tracked s).length := by
  rw [← issued_borrows hb hs, List.length_map]

/-! ## 3. Loans and accesses -/

theorem loan?_moveAccess (p : Place) : (f.moveAccess types p).loan? = none := by
  unfold moveAccess
  split_ifs <;> rfl

theorem loans_of_operandAccesses (ops : List Operand) :
    ∀ ls : List Loan, ls.length = (operandBorrows ops).length →
      (f.operandAccesses types ops ls).filterMap Access.loan? = ls := by
  induction ops with
  | nil =>
    intro ls h
    rw [List.length_eq_zero_iff.mp h]
    rfl
  | cons o ops ih =>
    intro ls h
    cases o with
    | copy p => exact ih ls h
    | move p =>
      rw [operandAccesses, List.filterMap_cons_none (loan?_moveAccess p)]
      exact ih ls h
    | literal v => exact ih ls h
    | ref p k =>
      cases ls with
      | nil => cases h
      | cons l ls =>
        exact congrArg (l :: ·) (ih ls (Nat.succ.inj h))

theorem loans_of_valueAccesses (v : Value) {issued : List Loan}
    (h : issued.length = (operandBorrows v.operands).length) :
    (f.valueAccesses types v issued).filterMap Access.loan? = issued := by
  have hreads : (v.cloned?.toList.map Access.read).filterMap Access.loan? = [] := by
    refine List.filterMap_eq_nil_iff.mpr fun a ha => ?_
    obtain ⟨p, _, rfl⟩ := List.mem_map.mp ha
    rfl
  rw [valueAccesses, List.filterMap_append, hreads, List.nil_append]
  exact loans_of_operandAccesses v.operands issued h

/-- The accesses of a statement make its loans, in order. -/
theorem loans_of_accesses {s : Statement} {issued : List Loan}
    (h : issued.length = (f.borrows types tracked s).length) :
    (f.accesses types issued s).filterMap Access.loan? = issued := by
  cases s with
  | assign d v =>
    unfold borrows at h
    rw [List.length_map] at h
    rw [accesses, List.filterMap_append, loans_of_valueAccesses v h]
    exact List.append_nil issued
  | eval v =>
    unfold borrows at h
    rw [List.length_map] at h
    exact loans_of_valueAccesses v h
  | borrow d p k =>
    rw [accesses, List.filterMap_append, List.filterMap_map]
    exact (List.append_nil _).trans List.filterMap_some
  | move d p =>
    rw [List.length_eq_zero_iff.mp h, accesses, List.filterMap_cons_none (loan?_moveAccess p)]
    rfl
  | drop p =>
    rw [List.length_eq_zero_iff.mp h]
    rfl

/-- The loans that statements make are sorted by number. -/
theorem issueLoans_sorted : (f.issueLoans types tracked f.graph).Pairwise fun a b => a.id < b.id := by
  have htable : LoanTable (f.issueLoans types tracked f.graph) (f.issueLoans types tracked f.graph) :=
    issueLoans_table tracked f.graph
  have hnum := htable.numbered
  refine List.pairwise_iff_getElem.mpr fun i j hi hj hij => ?_
  rw [hnum i _ (List.getElem?_eq_getElem hi), hnum j _ (List.getElem?_eq_getElem hj)]
  exact hij

/-- Of loans sorted by number, those with a smaller number than a loan stand before it. -/
theorem mem_before_of_sorted {before after : List Loan} {l a : Loan}
    (hsorted : (before ++ l :: after).Pairwise fun a b => a.id < b.id)
    (ha : a ∈ before ++ l :: after) (hlt : a.id < l.id) : a ∈ before := by
  rcases List.mem_append.mp ha with ha | ha
  · exact ha
  rcases List.mem_cons.mp ha with rfl | ha
  · exact absurd hlt (Nat.lt_irrefl _)
  · have hgt := List.rel_of_pairwise_cons (List.pairwise_append.mp hsorted).2.1 ha
    exact absurd hlt (Nat.lt_asymm hgt)

/-- The access that makes a loan comes after those that make the loans before it. -/
theorem exists_borrow_of_loan {as : List Access} {before after : List Loan} {l : Loan}
    (h : as.filterMap Access.loan? = before ++ l :: after) :
    ∃ first p rest, as = first ++ .borrow p l :: rest ∧ first.filterMap Access.loan? = before := by
  obtain ⟨first, rest, rfl, hbefore, hrest⟩ := List.filterMap_eq_append_iff.mp h
  obtain ⟨skipped, a, rest', rfl, hskipped, ha, _⟩ := List.filterMap_eq_cons_iff.mp hrest
  cases a with
  | read p => cases ha
  | move p => cases ha
  | write p => cases ha
  | borrow p new =>
    cases ha
    refine ⟨first ++ skipped, p, rest', (List.append_assoc _ _ _).symm, ?_⟩
    rw [List.filterMap_append, hbefore, List.filterMap_eq_nil_iff.mpr hskipped, List.append_nil]

/-- The accesses of every statement in a reachable block are looked at. -/
theorem mem_accessPoints {facts : LoanFacts} {p : Point} {s : Statement}
    (hb : p.block ∈ f.graph.reachable) (hs : f.statementAt? p = some s) :
    (p, f.accesses types (facts.issued p) s) ∈ f.accessPoints f.graph types facts :=
  List.mem_flatMap.mpr ⟨_, hb, List.mem_append_left _
    (List.mem_map.mpr ⟨_, mem_statementsOf.mpr ⟨rfl, hs⟩, rfl⟩)⟩

/-- If the detector is silent, nothing is in the way of a new loan: no loan in use before its
    statement, and none that the same statement made before it. -/
theorem not_excluded_of_silence {facts : LoanFacts} (ht : LoanTable (f.issueLoans types tracked f.graph)
    facts.loans) (hsilent : (pointsConflicts facts (f.accessPoints f.graph types facts) []).1 = [])
    {l : Loan} (hl : l ∈ f.issueLoans types tracked f.graph) :
    (∀ x ∈ facts.activeBefore l.issuedAt, (x.isTouched l.place && x.excludes l) = false) ∧
    ∀ a ∈ f.issueLoans types tracked f.graph, a.issuedAt = l.issuedAt → a.id < l.id →
      (a.isTouched l.place && a.excludes l) = false := by
  obtain ⟨st, hst, hblock, _⟩ := exists_statement_of_issued hl
  have hrow : (l.issuedAt, f.accesses types (facts.issued l.issuedAt) st) ∈
      f.accessPoints f.graph types facts := mem_accessPoints hblock hst
  have hissued : facts.issued l.issuedAt =
      Loan.issuedAtPoint (f.issueLoans types tracked f.graph) l.issuedAt := ht.issuedAtPoint_eq _
  have hmem : ∀ a, a ∈ facts.issued l.issuedAt ↔
      a ∈ f.issueLoans types tracked f.graph ∧ a.issuedAt = l.issuedAt := fun a => ht.mem_issuedAtPoint
  have hloans := loans_of_accesses (hissued ▸ issued_length hblock hst)
  -- split the loans of the statement at the new one, and its accesses accordingly
  obtain ⟨before, after, hsplit⟩ := List.append_of_mem ((hmem l).mpr ⟨hl, rfl⟩)
  obtain ⟨first, p, rest, has, hbefore⟩ := exists_borrow_of_loan (hloans.trans hsplit)
  have hone := (accessesConflicts_nil (pointsConflicts_nil hsilent _ _ hrow)).2 first _ rest has
  rw [hbefore, List.nil_append] at hone
  obtain ⟨_, hnone⟩ := borrowConflicts_nil hone
  refine ⟨fun x hx => hnone x (List.mem_append_left _ hx), fun a ha hpt hlt => ?_⟩
  have hsorted : (before ++ l :: after).Pairwise fun a b => a.id < b.id := by
    rw [← hsplit, hissued]
    exact issueLoans_sorted.filter _
  exact hnone a (List.mem_append_right _
    (mem_before_of_sorted hsorted (hsplit ▸ (hmem a).mpr ⟨ha, hpt⟩) hlt))

/-- **With a good verdict, nothing is in the way of a new loan.** -/
theorem not_excluded_of_ok {s : Settings} (hf : f.WellFormed) (hok : (f.check types s).ok = true)
    {l : Loan} (hl : l ∈ f.issueLoans types (f.tracked types) f.graph) :
    (∀ x ∈ (f.analyse types s.maxVisits).loans.activeBefore l.issuedAt,
      (x.isTouched l.place && x.excludes l) = false) ∧
    ∀ a ∈ f.issueLoans types (f.tracked types) f.graph, a.issuedAt = l.issuedAt → a.id < l.id →
      (a.isTouched l.place && a.excludes l) = false :=
  not_excluded_of_silence (analyse_table hf types s.maxVisits) (accesses_eq_nil hok) hl

end Function

end Ownership
