import Ownership.Proofs.Flow.Termination
import Ownership.Proofs.Loans.Pass

/-!
# The loan pass stops by itself

What the pass keeps behind a block are numbers of loans, and the table that the numbers are read with
grows along the way. Still the numbers only grow from visit to visit: a loan that is derived a second
time is found in the table under the number it got the first time. And the table cannot grow for ever,
as no two derived loans have the same origin, point and holder.

* `LoanTable.derive_again`, `loanBlock_again`: a later visit finds the loans of an earlier one;
* `LoanTable.Memo`, `Memo.length_le`: how large the table gets;
* `trackLoans_stops`: with enough visits the pass converges.
-/

namespace Ownership

open Std (ExtTreeMap ExtTreeSet)

variable {issued table t : List Loan} {pt : Point} {holder : String}

/-! ## 1. Deriving again -/

namespace LoanTable

theorem deriveAll_cons (l : Loan) (ls : List Loan) : Loan.deriveAll pt holder table (l :: ls) =
    ((Loan.deriveAll pt holder (Loan.derive table l pt holder).1 ls).1,
      (Loan.derive table l pt holder).2 ::
        (Loan.deriveAll pt holder (Loan.derive table l pt holder).1 ls).2) := rfl

theorem derive_grows (parent : Loan) : table <+: (Loan.derive table parent pt holder).1 := by
  unfold Loan.derive
  split
  · exact List.prefix_rfl
  · exact List.prefix_append _ _

theorem deriveAll_grows (parents : List Loan) :
    table <+: (Loan.deriveAll pt holder table parents).1 := by
  induction parents generalizing table with
  | nil => exact List.prefix_rfl
  | cons l ls ih =>
    rw [deriveAll_cons]
    exact (derive_grows l).trans ih

/-- **A loan that is derived again is found under its number.** -/
theorem derive_again (h : LoanTable issued table) {parent : Loan} (hp : parent ∈ table)
    (ht : (Loan.derive table parent pt holder).1 <+: t) :
    Loan.derive t parent pt holder = (t, (Loan.derive table parent pt holder).2) := by
  unfold Loan.derive at ht ⊢
  split at ht
  · rename_i l hfind
    obtain ⟨extra, rfl⟩ := ht
    rw [List.find?_append, hfind]
    rfl
  · rename_i hfind
    obtain ⟨extra, rfl⟩ := ht
    -- the new entry is a derived loan, as its parent goes back to one of the first loans
    obtain ⟨o, ho, _⟩ := h.rooted parent hp
    have hlt : parent.origin < table.length :=
      Nat.lt_of_lt_of_le (List.getElem?_eq_some_iff.mp ho).1 h.grown.length_le
    have hder : (parent.origin != table.length) = true := bne_iff_ne.mpr (Nat.ne_of_lt hlt)
    rw [List.find?_append, List.find?_append, hfind]
    simp [Loan.isDerived, hder]

theorem mem_deriveAll {parents : List Loan} {l : Loan} (hl : l ∈ parents) {i : Nat}
    (hi : ∀ t, table <+: t → Loan.derive t l pt holder = (t, i)) :
    i ∈ (Loan.deriveAll pt holder table parents).2 := by
  induction parents generalizing table with
  | nil => cases hl
  | cons k ks ih =>
    rw [deriveAll_cons]
    rcases List.mem_cons.mp hl with rfl | hl
    · rw [hi table List.prefix_rfl]
      exact List.mem_cons_self
    · exact List.mem_cons_of_mem _ (ih hl fun t ht => hi t ((derive_grows k).trans ht))

theorem deriveAll_again {parents parents' : List Loan} (h : LoanTable issued table)
    (hp : ∀ l ∈ parents, l ∈ table) (ht : (Loan.deriveAll pt holder table parents).1 <+: t)
    (hsub : ∀ l ∈ parents, l ∈ parents') {i : Nat}
    (hi : i ∈ (Loan.deriveAll pt holder table parents).2) :
    i ∈ (Loan.deriveAll pt holder t parents').2 := by
  induction parents generalizing table with
  | nil => cases hi
  | cons l ls ih =>
    rw [deriveAll_cons] at ht hi
    have hl := hp l List.mem_cons_self
    have hmid := (h.derive hl pt holder rfl).1
    rcases List.mem_cons.mp hi with rfl | hi
    · refine mem_deriveAll (hsub l List.mem_cons_self) fun t' ht' => ?_
      exact h.derive_again hl (((deriveAll_grows ls).trans ht).trans ht')
    · refine ih hmid (fun k hk => ?_) ht (fun k hk => hsub k (List.mem_cons_of_mem _ hk)) hi
      exact (derive_grows l).subset (hp k (List.mem_cons_of_mem _ hk))

/-! ## 2. How large the table gets -/

/-- Derived loans are told apart by what they stand for, and are made at the listed points for the
    listed holders. -/
structure Memo (spots : List (Point × String)) (table : List Loan) : Prop where
  distinct : ((table.filter Loan.isDerived).map Loan.hold?).Nodup
  spotted : ∀ l ∈ table, l.isDerived = true →
    ∃ x, l.hold? = some x ∧ (x.madeAt, x.holder) ∈ spots

/-- Everything that derived loans can stand for. -/
def derivedHolds (issued : List Loan) (spots : List (Point × String)) : List (Option Hold) :=
  (List.range issued.length).flatMap fun o => spots.map fun r => some ⟨o, r.1, r.2⟩

theorem Memo.length_le {spots : List (Point × String)} (hm : Memo spots table)
    (h : LoanTable issued table) :
    table.length ≤ issued.length + (derivedHolds issued spots).length := by
  obtain ⟨extra, rfl⟩ := h.grown
  have hextra : extra.filter Loan.isDerived = extra :=
    List.filter_eq_self.mpr fun l hl => h.isDerived_of_mem hl
  have hsub : ((issued ++ extra).filter Loan.isDerived).map Loan.hold? ⊆ derivedHolds issued spots := by
    intro y hy
    obtain ⟨l, hl, rfl⟩ := List.mem_map.mp hy
    obtain ⟨hl, hder⟩ := List.mem_filter.mp hl
    obtain ⟨x, hx, hspot⟩ := hm.spotted l hl hder
    obtain ⟨o, ho, _⟩ := h.rooted l hl
    have horigin : x.origin < issued.length :=
      (Loan.hold?_eq_some.mp hx).1 ▸ (List.getElem?_eq_some_iff.mp ho).1
    rw [hx]
    exact List.mem_flatMap.mpr ⟨x.origin, List.mem_range.mpr horigin,
      List.mem_map.mpr ⟨(x.madeAt, x.holder), hspot, rfl⟩⟩
  have hlen := (hm.distinct.subperm hsub).length_le
  rw [List.length_map, List.filter_append, hextra, List.length_append] at hlen
  rw [List.length_append]
  omega

theorem Memo.derive {spots : List (Point × String)} (hm : Memo spots table) {parent : Loan}
    (hspot : (pt, holder) ∈ spots) : Memo spots (Loan.derive table parent pt holder).1 := by
  unfold Loan.derive
  split
  · exact hm
  · rename_i hfind
    have hnew : ∀ l ∈ table, l.isDerived = true → l.hold? ≠ some ⟨parent.origin, pt, holder⟩ := by
      intro l hl hder hx
      obtain ⟨horigin, hpt, hholder⟩ := Loan.hold?_eq_some.mp hx
      have hnone := List.find?_eq_none.mp hfind l hl
      exact hnone (by simp [hder, horigin, hpt, hholder])
    refine ⟨?_, fun l hl hder => ?_⟩
    · rw [List.filter_append, List.map_append, List.nodup_append']
      refine ⟨hm.distinct, ?_, ?_⟩
      · exact ((List.nodup_singleton _).filter _).map_on (fun x hx y hy _ => by
          rw [List.mem_singleton.mp (List.mem_of_mem_filter hx), List.mem_singleton.mp (List.mem_of_mem_filter hy)])
      · intro y hy hy'
        obtain ⟨l, hl, rfl⟩ := List.mem_map.mp hy
        obtain ⟨k, hk, he⟩ := List.mem_map.mp hy'
        obtain ⟨hl, hder⟩ := List.mem_filter.mp hl
        cases List.mem_singleton.mp (List.mem_of_mem_filter hk)
        exact hnew l hl hder he.symm
    · rcases List.mem_append.mp hl with hl | hl
      · exact hm.spotted l hl hder
      · cases List.mem_singleton.mp hl
        exact ⟨⟨parent.origin, pt, holder⟩, rfl, hspot⟩

theorem Memo.deriveAll {spots : List (Point × String)} (hm : Memo spots table)
    (hspot : (pt, holder) ∈ spots) (parents : List Loan) :
    Memo spots (Loan.deriveAll pt holder table parents).1 := by
  induction parents generalizing table with
  | nil => exact hm
  | cons l ls ih =>
    rw [deriveAll_cons]
    exact ih (hm.derive hspot)

end LoanTable

/-! ## 3. Over statements and blocks -/

namespace Function

variable {f : Function} {types : TypeTable} {live : LiveFacts} {ids ids' : LoanIds} {s : Statement}
  {p : Point}

/-- **A later visit of a statement finds the loans of an earlier one.** -/
theorem loanStep_again (h : LoanTable issued table) (h' : LoanTable issued t) (hl : Listed table ids)
    (ht : (f.loanStep types live p s table ids).1 <+: t) (hsub : ∀ i ∈ ids, i ∈ ids') {i : Nat}
    (hi : i ∈ (f.loanStep types live p s table ids).2.1) :
    i ∈ (f.loanStep types live p s t ids').2.1 := by
  obtain ⟨_, hpre, hlisted⟩ := f.loanStep_table types live p s ids h
  obtain ⟨_, hpre', _⟩ := f.loanStep_table types live p s ids' h'
  have hgrown := hpre.trans ht
  have hget : ∀ j ∈ ids, t[j]? = table[j]? := fun j hj => getElem?_of_grown hgrown (hl j hj)
  have hsame := getElem?_of_grown (ht.trans hpre') (hlisted i hi)
  rw [loanStep_eq] at hi hsame ⊢
  obtain ⟨hi, l, hil, hheld⟩ := mem_keep.mp hi
  refine mem_keep.mpr ⟨?_, l, hsame.trans hil, hheld⟩
  rw [mem_insertMany_iff, mem_insertMany_iff] at hi ⊢
  rcases hi with (hi | hi) | hi
  · refine Or.inl (Or.inl ?_)
    obtain ⟨hi, hkill⟩ := mem_filter_iff.mp hi
    exact mem_filter_iff.mpr ⟨hsub i hi, by rw [hget i hi]; exact hkill⟩
  · refine Or.inl (Or.inr ?_)
    rw [madeIds, h'.issuedAtPoint_eq, ← h.issuedAtPoint_eq]
    exact hi
  · refine Or.inr (h.deriveAll_again (fun k hk => parents_sub hk) ht (fun k hk => ?_) hi)
    obtain ⟨y, hy, hflow, j, hj, hjk⟩ := mem_parents.mp hk
    exact mem_parents.mpr ⟨y, hy, hflow, j, hsub j hj, (hget j hj).trans hjk⟩

variable {body : List (Statement × Point)} {b : Nat}

theorem loanSteps_cons (x : Statement × Point) : f.loanSteps types live (x :: body) table ids =
    let step := f.loanStep types live x.2 x.1 table ids
    let rest := f.loanSteps types live body step.1 step.2.1
    (rest.1, rest.2.1, (x.2, step.2.2) :: rest.2.2) := rfl

theorem loanSteps_table (f : Function) (types : TypeTable) (live : LiveFacts)
    (body : List (Statement × Point)) (ids : LoanIds) (h : LoanTable issued table) :
    LoanTable issued (f.loanSteps types live body table ids).1 ∧
      table <+: (f.loanSteps types live body table ids).1 ∧
      (Listed table ids →
        Listed (f.loanSteps types live body table ids).1 (f.loanSteps types live body table ids).2.1) := by
  induction body generalizing table ids with
  | nil => exact ⟨h, List.prefix_rfl, fun hl => hl⟩
  | cons x body ih =>
    obtain ⟨hmid, hpre, hlisted⟩ := f.loanStep_table types live x.2 x.1 ids h
    obtain ⟨hlast, hpre', hout⟩ := ih _ hmid
    exact ⟨hlast, hpre.trans hpre', fun _ => hout hlisted⟩

theorem loanSteps_again (h : LoanTable issued table) (h' : LoanTable issued t) (hl : Listed table ids)
    (ht : (f.loanSteps types live body table ids).1 <+: t) (hsub : ∀ i ∈ ids, i ∈ ids') :
    ∀ i ∈ (f.loanSteps types live body table ids).2.1,
      i ∈ (f.loanSteps types live body t ids').2.1 := by
  induction body generalizing table t ids ids' with
  | nil => exact hsub
  | cons x body ih =>
    rw [loanSteps_cons] at ht
    rw [loanSteps_cons, loanSteps_cons]
    obtain ⟨hmid, _, hlisted⟩ := f.loanStep_table types live x.2 x.1 ids h
    obtain ⟨hmid', hpre', _⟩ := f.loanStep_table types live x.2 x.1 ids' h'
    have hrest := (f.loanSteps_table types live body _ hmid).2.1.trans ht
    exact ih hmid hmid' hlisted (ht.trans hpre') fun i hi => loanStep_again h h' hl hrest hsub hi

theorem loanBlock_eq : f.loanBlock types live b table ids =
    let steps := f.loanSteps types live (f.statementsOf b) table ids
    (steps.1, f.loanExit live b steps.1 steps.2.1,
      steps.2.2 ++ [(f.exitOf b, { reaching := steps.2.1 })]) := rfl

/-- **A later visit of a block finds the loans of an earlier one.** -/
theorem loanBlock_again (h : LoanTable issued table) (h' : LoanTable issued t) (hl : Listed table ids)
    (ht : (f.loanBlock types live b table ids).1 <+: t) (hsub : ∀ i ∈ ids, i ∈ ids') :
    ∀ i ∈ (f.loanBlock types live b table ids).2.1, i ∈ (f.loanBlock types live b t ids').2.1 := by
  rw [loanBlock_eq] at ht
  rw [loanBlock_eq, loanBlock_eq]
  have hlisted := (f.loanSteps_table types live (f.statementsOf b) ids h).2.2 hl
  have hpre' := (f.loanSteps_table types live (f.statementsOf b) ids' h').2.1
  have hsteps := loanSteps_again h h' hl ht hsub
  intro i hi
  dsimp only at hi ⊢
  unfold loanExit at hi ⊢
  split at hi
  · exact absurd hi ExtTreeSet.not_mem_empty
  · obtain ⟨hi, l, hil, hheld⟩ := mem_keep.mp hi
    have hsame := getElem?_of_grown (ht.trans hpre') (hlisted i hi)
    exact mem_keep.mpr ⟨hsteps i hi, l, hsame.trans hil, hheld⟩

/-- The points at which loans may be derived, with the roots that would hold them. -/
def spots (f : Function) : List (Point × String) :=
  f.graph.order.flatMap fun b => (f.statementsOf b).map fun x => (x.2, x.1.destName)

theorem loanSteps_memo (h : LoanTable.Memo f.spots table)
    (hbody : ∀ x ∈ body, (x.2, x.1.destName) ∈ f.spots) :
    LoanTable.Memo f.spots (f.loanSteps types live body table ids).1 := by
  induction body generalizing table ids with
  | nil => exact h
  | cons x body ih =>
    exact ih (h.deriveAll (hbody x List.mem_cons_self) _) fun y hy => hbody y (List.mem_cons_of_mem _ hy)

theorem loanBlock_memo (hb : b ∈ f.graph.order) (h : LoanTable.Memo f.spots table) :
    LoanTable.Memo f.spots (f.loanBlock types live b table ids).1 :=
  loanSteps_memo h fun _ hx => List.mem_flatMap.mpr ⟨b, hb, List.mem_map_of_mem hx⟩

/-! ## 4. Visits -/

/-- The loans kept behind the blocks come from visits whose loans and table were at most the present
    ones. -/
def LoansAscending (f : Function) (types : TypeTable) (live : LiveFacts) (s : LoanSets) : Prop :=
  ∀ b out, s.outs.get? b = some out → ∃ table ids,
    LoanTable (f.issueLoans types live.tracked f.graph) table ∧ Listed table ids ∧
      (f.loanBlock types live b table ids).2.1 = out ∧
      (f.loanBlock types live b table ids).1 <+: s.table ∧ ∀ i ∈ ids, i ∈ f.loansInto s b

/-- The numbers of the loans behind a block. -/
def LoanSets.kept (s : LoanSets) (b : Nat) : Option (Set Nat) :=
  (s.outs.get? b).map fun ids => {i | i ∈ ids}

variable {s : LoanSets}

/-- A visit that finds nothing new wakes nothing. -/
theorem visitLoans_quiet (b : Nat) {s : LoanSets}
    (h : s.outs.get? b = some (f.loanBlock types live b s.table (f.loansInto s b)).2.1) :
    (f.visitLoans types live f.graph b s).2 = [] :=
  congrArg Prod.snd ((visitLoans_eq rfl).trans (if_pos h))

section Visit

variable (hs : s.LoansListed (f.issueLoans types live.tracked f.graph)) (ha : f.LoansAscending types live s)

include hs ha

theorem LoansAscending.kept_sub {out : LoanIds} (ho : s.outs.get? b = some out) :
    ∀ i ∈ out, i ∈ (f.loanBlock types live b s.table (f.loansInto s b)).2.1 := by
  obtain ⟨table, ids, htable, hlisted, rfl, hpre, hsub⟩ := ha b out ho
  exact loanBlock_again htable hs.table hlisted hpre hsub

theorem LoansAscending.into_sub (b c : Nat) :
    ∀ i ∈ f.loansInto s c, i ∈ f.loansInto (f.visitLoans types live f.graph b s).1 c := by
  intro i hi
  obtain ⟨p, hp, ids, hids, hi⟩ := mem_loansInto.mp hi
  by_cases e : p = b
  · subst e
    exact mem_loansInto.mpr ⟨p, hp, _, by rw [visitLoans_outs, if_pos rfl], ha.kept_sub hs hids i hi⟩
  · exact mem_loansInto.mpr ⟨p, hp, ids, by rw [visitLoans_outs, if_neg e, hids], hi⟩

theorem LoansAscending.next (b : Nat) :
    f.LoansAscending types live (f.visitLoans types live f.graph b s).1 := by
  intro c out hout
  have hgrown := (f.loanSteps_table types live (f.statementsOf b) (f.loansInto s b) hs.table).2.1
  rw [visitLoans_outs] at hout
  rw [visitLoans_table]
  split_ifs at hout with e
  · subst e
    cases hout
    exact ⟨s.table, f.loansInto s c, hs.table, loansInto_listed hs c, rfl, List.prefix_rfl,
      ha.into_sub hs c c⟩
  · obtain ⟨table, ids, htable, hlisted, ho, hpre, hsub⟩ := ha c out hout
    exact ⟨table, ids, htable, hlisted, ho, hpre.trans hgrown,
      fun i hi => ha.into_sub hs b c i (hsub i hi)⟩

theorem visitLoans_grows {K : Nat}
    (hK : (f.loanBlock types live b s.table (f.loansInto s b)).1.length ≤ K) :
    Worklist.Grows (Finset.range K) LoanSets.kept b s (f.visitLoans types live f.graph b s) := by
  have hlisted : Listed (f.loanBlock types live b s.table (f.loansInto s b)).1
      (f.loanBlock types live b s.table (f.loansInto s b)).2.1 :=
    (loanBlock_spec hs.table (loansInto_listed hs b) rfl).2.2.1
  refine ⟨fun c hc => ?_, {i | i ∈ (f.loanBlock types live b s.table (f.loansInto s b)).2.1}, ?_,
    fun A hA => ?_⟩
  · rw [LoanSets.kept, visitLoans_outs, if_neg hc]
    rfl
  · rw [LoanSets.kept, visitLoans_outs, if_pos rfl]
    rfl
  · obtain ⟨out, hout, rfl⟩ := Option.map_eq_some_iff.mp hA
    have hsub := ha.kept_sub hs hout
    refine ⟨hsub, ?_⟩
    by_cases hsame : out = (f.loanBlock types live b s.table (f.loansInto s b)).2.1
    · exact Or.inl (visitLoans_quiet b (hsame ▸ hout))
    · refine Or.inr (by_contra fun hno => hsame ?_)
      refine ExtTreeSet.ext_mem fun i => ⟨hsub i, fun hi => by_contra fun hnot => hno ⟨i, ?_, hi, hnot⟩⟩
      exact Finset.mem_range.mpr (Nat.lt_of_lt_of_le (hlisted i hi) hK)

end Visit

end Function

/-- None of the loans that statements make is derived. -/
theorem Function.not_isDerived_of_issueLoans {f : Function} {types : TypeTable} {tracked : Names}
    {l : Loan} (hl : l ∈ f.issueLoans types tracked f.graph) : ¬ l.isDerived = true := by
  rw [Loan.isDerived, bne_iff_ne, not_not]
  exact (Function.issueLoans_table tracked f.graph).own l hl

theorem Function.issueLoans_memo (f : Function) (types : TypeTable) (tracked : Names) :
    LoanTable.Memo f.spots (f.issueLoans types tracked f.graph) := by
  refine ⟨?_, fun l hl hder => absurd hder (not_isDerived_of_issueLoans hl)⟩
  rw [List.filter_eq_nil_iff.mpr fun l hl => not_isDerived_of_issueLoans hl]
  exact List.nodup_nil

/-- **With enough visits the loan pass converges.** -/
theorem trackLoans_stops {f : Function} (hf : f.WellFormed) (types : TypeTable) (live : LiveFacts) :
    ∃ N, ∀ cap, N ≤ cap → (f.trackLoans f.graph types cap live).converged = true := by
  refine Worklist.exists_cap hf.graph_sound.nodup
    (fun waiting s => (∀ b ∈ waiting, b ∈ f.graph.order) ∧
      s.LoansListed (f.issueLoans types live.tracked f.graph) ∧ LoanTable.Memo f.spots s.table ∧
      f.LoansAscending types live s)
    (fun b rest s h => ?_) (fun b rest s h => h.1 b List.mem_cons_self)
    (Finset.range ((f.issueLoans types live.tracked f.graph).length +
      (LoanTable.derivedHolds (f.issueLoans types live.tracked f.graph) f.spots).length))
    Function.LoanSets.kept (fun b rest s h => ?_) (s := f.firstLoans types live)
    ⟨fun b hb => ?_, Function.firstLoans_loansListed, f.issueLoans_memo types live.tracked,
      fun b out hout => ?_⟩ 0
  · obtain ⟨hwait, hfine, hm, ha⟩ := h
    refine ⟨fun c hc => (Worklist.mem_enqueue.mp hc).1, Function.visitLoans_loansListed hfine b, ?_,
      ha.next hfine b⟩
    rw [Function.visitLoans_table]
    exact Function.loanBlock_memo (hwait b List.mem_cons_self) hm
  · obtain ⟨hwait, hfine, hm, ha⟩ := h
    refine Function.visitLoans_grows hfine ha ?_
    refine (Function.loanBlock_memo (hwait b List.mem_cons_self) hm).length_le ?_
    exact (Function.loanBlock_spec hfine.table (Function.loansInto_listed hfine b) rfl).1
  · cases List.mem_singleton.mp hb
    exact hf.graph_sound.entry
  · cases hout.symm.trans ExtTreeMap.getElem?_empty

end Ownership
