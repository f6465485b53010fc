import Ownership.Proofs.Checked.Moves
import Ownership.Proofs.Loans.Stops

/-!
# The loan pass, with checked lookups

The pass keeps sets of loan numbers and looks the loans up in the table whenever it asks who holds
them. A number gets into a set only when its loan is in the table, and the table only grows
(`Listed`, `LoanTable`), so that every number that is looked up is there.

* `Checked.filterLoans`: the numbers of a set whose loans have a property;
* `Checked.loanStep_eq`, `Checked.loanBlock_eq`: over a statement and over a block;
* `Checked.replayLoans_eq`: the rows written at the end, whose sets are listed as well;
* `Checked.trackLoans_eq`: the pass as a whole.
-/

namespace Ownership

open Std

namespace Checked

/-! ## 1. Sets of loans -/

/-- The loan with the number `i`. -/
def loan (table : List Loan) (i : Nat) : Except Miss Loan := found (.loan i) table[i]?

/-- The loans with the given numbers, by number. -/
def select (table : List Loan) (ids : LoanIds) : Except Miss (List Loan) := ids.toList.mapM (loan table)

/-- The numbers of the loans with a property. -/
def filterLoans (table : List Loan) (ids : LoanIds) (p : Loan → Bool) : Except Miss LoanIds := do
  let rows ← ids.toList.mapM fun i => do
    let l ← loan table i
    return (i, p l)
  return ExtTreeSet.ofList ((rows.filter Prod.snd).map Prod.fst)

section Sets

variable {table : List Loan} {ids : LoanIds}

theorem select_eq (h : Listed table ids) : select table ids = .ok (Loan.select table ids) := by
  refine mapM_found fun i hi => ?_
  rw [List.getElem?_eq_getElem (h i (ExtTreeSet.mem_toList.mp hi))]
  rfl

theorem filterLoans_eq (h : Listed table ids) {p : Loan → Bool} {q : Nat → Bool}
    (hq : ∀ i ∈ ids, ∀ l, table[i]? = some l → p l = q i) :
    filterLoans table ids p = .ok (ids.filter q) := by
  have hrows : ids.toList.mapM (fun i => do
      let l ← loan table i
      return (i, p l)) = .ok (ids.toList.map fun i => (i, q i)) := by
    refine mapM_ok fun i hi => ?_
    have hmem := ExtTreeSet.mem_toList.mp hi
    have hget := List.getElem?_eq_getElem (h i hmem)
    rw [loan, hget, found_some, ok_bind, hq i hmem _ hget]
    rfl
  rw [filterLoans, hrows, ok_bind]
  refine congrArg Except.ok (ExtTreeSet.ext_mem fun i => ?_)
  rw [ExtTreeSet.mem_ofList, List.contains_iff_mem, mem_filter_iff, List.filter_map, List.map_map]
  simp only [List.mem_map, List.mem_filter, ExtTreeSet.mem_toList, Function.comp]
  constructor
  · intro hi
    obtain ⟨j, hj, rfl⟩ := hi
    exact hj
  · exact fun hi => ⟨i, hi, rfl⟩

theorem keep_eq (h : Listed table ids) (roots : Names) :
    filterLoans table ids (fun l => l.isHeldIn roots) = .ok (Loan.keep table ids roots) :=
  filterLoans_eq h fun i _ l hl => by rw [hl, Option.any_some]

theorem left_eq (h : Listed table ids) (s : Statement) :
    filterLoans table ids (fun l => !l.isHeldIn s.killed) = .ok (Function.left table ids s) :=
  filterLoans_eq h fun i _ l hl => by rw [hl, Option.any_some]

end Sets

/-! ## 2. Over statements and blocks -/

section Steps

variable (f : Function) (types : TypeTable) (live : LiveFacts)

/-- The loans that `root` holds. -/
def heldBy (table : List Loan) (ids : LoanIds) (root : String) : Except Miss (List Loan) := do
  let loans ← select table ids
  return loans.filter fun l => l.holder == some root

/-- The loans that a statement derives from. -/
def loanParents (table : List Loan) (ids : LoanIds) (s : Statement) : Except Miss (List Loan) := do
  let rows ← (f.handedOn types live.tracked s).mapM (heldBy table ids)
  return rows.flatten

/-- One statement: what it derives enters the table, what it kills leaves the set, what it makes enters
    the set, and what nothing live holds is left behind. -/
def loanStep (pt : Point) (s : Statement) (table : List Loan) (ids : LoanIds) :
    Except Miss (List Loan × LoanIds × LoanPoint) := do
  let parents ← loanParents f types live table ids s
  let derived := Loan.deriveAll pt s.destName table parents
  let left ← filterLoans table ids fun l => !l.isHeldIn s.killed
  let behind := (left.insertMany (Function.madeIds table pt)).insertMany derived.2
  let kept ← filterLoans derived.1 behind fun l => l.isHeldIn (live.liveAfter pt)
  return (derived.1, kept, ⟨ids, s.killed, derived.2⟩)

/-- Statements one after the other, with what was found out before each of them. -/
def loanSteps : List (Statement × Point) → List Loan → LoanIds →
    Except Miss (List Loan × LoanIds × List (Point × LoanPoint))
  | [], table, ids => .ok (table, ids, [])
  | x :: rest, table, ids => do
    let here ← loanStep f types live x.2 x.1 table ids
    let later ← loanSteps rest here.1 here.2.1
    return (later.1, later.2.1, (x.2, here.2.2) :: later.2.2)

/-- The loans behind a terminator of block `b`. -/
def loanExit (b : Nat) (t : Terminator) (table : List Loan) (ids : LoanIds) : Except Miss LoanIds :=
  match t with
  | .ret => .ok ∅
  | _ => filterLoans table ids fun l => l.isHeldIn (live.liveOut.getD b ∅)

/-- A whole block: its statements, then its terminator. -/
def loanBlock (b : Nat) (table : List Loan) (ids : LoanIds) :
    Except Miss (List Loan × LoanIds × List (Point × LoanPoint)) := do
  let block ← block f b
  let statements ← statementsOf f b
  let r ← loanSteps f types live statements table ids
  let out ← loanExit live b block.terminator r.1 r.2.1
  return (r.1, out, r.2.2 ++ [(⟨b, block.statements.length⟩, { reaching := r.2.1 })])

end Steps

section StepsMiss

variable {f : Function} {types : TypeTable} {live : LiveFacts} {issued table : List Loan} {ids : LoanIds}

theorem loanParents_eq (h : Listed table ids) (s : Statement) :
    loanParents f types live table ids s = .ok (f.parents types live table ids s) := by
  have hrows : (f.handedOn types live.tracked s).mapM (heldBy table ids) =
      .ok ((f.handedOn types live.tracked s).map fun root =>
        (Loan.select table ids).filter fun l => l.holder == some root) := by
    refine mapM_ok fun root _ => ?_
    rw [heldBy, select_eq h]
    rfl
  rw [loanParents, hrows, ok_bind, ← List.flatMap_def]
  rfl

/-- What reaches the end of a statement, before the dead holders are taken out, is listed. -/
theorem behind_listed (f : Function) (types : TypeTable) (live : LiveFacts) (h : LoanTable issued table)
    (hl : Listed table ids) (p : Point) (s : Statement) :
    Listed (f.derivedAt types live p s table ids).1
      (((Function.left table ids s).insertMany (Function.madeIds table p)).insertMany
        (f.derivedAt types live p s table ids).2) := by
  obtain ⟨_, hpre, hback, _⟩ := h.deriveAll p s.destName (fun l hl => Function.parents_sub hl)
    (rfl : _ = ((f.derivedAt types live p s table ids).1, (f.derivedAt types live p s table ids).2))
  have hlt : ∀ i, i < table.length → i < (f.derivedAt types live p s table ids).1.length :=
    fun i hi => Nat.lt_of_lt_of_le hi hpre.length_le
  intro i hi
  rcases mem_insertMany_iff.mp hi with hi | hi
  · rcases mem_insertMany_iff.mp hi with hi | hi
    · exact hlt i (hl i ((Function.mem_left hl).mp hi).1)
    · obtain ⟨_, _, _, hget, _⟩ := (Function.mem_madeIds h).mp hi
      exact hlt i (List.getElem?_eq_some_iff.mp hget).1
  · obtain ⟨_, _, _, hget, _⟩ := hback i hi
    exact (List.getElem?_eq_some_iff.mp hget).1

theorem loanStep_eq (h : LoanTable issued table) (hl : Listed table ids) (p : Point) (s : Statement) :
    loanStep f types live p s table ids = .ok (f.loanStep types live p s table ids) := by
  have hkeep := keep_eq (behind_listed f types live h hl p s) (live.liveAfter p)
  rw [loanStep, loanParents_eq hl, ok_bind, left_eq hl, ok_bind, Function.loanStep_eq]
  exact congrArg (fun r => r >>= _) hkeep

theorem loanSteps_eq (h : LoanTable issued table) (hl : Listed table ids)
    (body : List (Statement × Point)) :
    loanSteps f types live body table ids = .ok (f.loanSteps types live body table ids) := by
  induction body generalizing table ids with
  | nil => rfl
  | cons x body ih =>
    obtain ⟨hmid, _, hlisted⟩ := f.loanStep_table types live x.2 x.1 ids h
    rw [loanSteps, loanStep_eq h hl, ok_bind, ih hmid hlisted, ok_bind, Function.loanSteps_cons]
    rfl

theorem loanExit_eq (hl : Listed table ids) (b : Nat) :
    loanExit live b (f.block b).terminator table ids = .ok (f.loanExit live b table ids) := by
  unfold loanExit Function.loanExit
  cases (f.block b).terminator with
  | ret => rfl
  | _ => exact keep_eq hl _

/-- **Over a block no loan is missing.** -/
theorem loanBlock_eq (h : LoanTable issued table) (hl : Listed table ids) {b : Nat}
    (hb : b < f.blocks.length) :
    loanBlock f types live b table ids = .ok (f.loanBlock types live b table ids) := by
  have hlisted := (f.loanSteps_table types live (f.statementsOf b) ids h).2.2 hl
  rw [loanBlock, block_eq hb, ok_bind, statementsOf_eq hb, ok_bind, loanSteps_eq h hl, ok_bind,
    loanExit_eq hlisted, ok_bind]
  rfl

end StepsMiss

/-! ## 3. The pass -/

section Pass

variable (f : Function) (types : TypeTable) (live : LiveFacts) (g : Graph)

/-- The borrows of the statements of a block, each with its point. -/
def borrowsIn (tracked : Names) (b : Nat) :
    Except Miss (List (Point × Place × LoanKind × Option String)) := do
  let statements ← statementsOf f b
  return statements.flatMap fun x => (f.borrows types tracked x.1).map fun row => (x.2, row)

/-- All loans that statements of reachable blocks make themselves. -/
def issueLoans (tracked : Names) : Except Miss (List Loan) := do
  let made ← g.reachable.mapM (borrowsIn f types tracked)
  return made.flatten.zipIdx.map fun x =>
    { id := x.2, place := x.1.2.1, kind := x.1.2.2.1, issuedAt := x.1.1, holder := x.1.2.2.2, origin := x.2 }

/-- Visit block `b`. Its successors are woken if the loans behind it are not the ones known so far. -/
def visitLoans (b : Nat) (s : Function.LoanSets) : Except Miss (Function.LoanSets × List Nat) := do
  let preds ← predsOf g b
  let into := (preds.filter g.isReachable).foldl (fun ids p => ids ∪ s.outs.getD p ∅) ∅
  let r ← loanBlock f types live b s.table into
  let ins := s.ins.insert b into
  if s.outs.get? b = some r.2.1 then .ok (⟨r.1, ins, s.outs⟩, [])
  else do
    let succs ← succsOf g b
    return (⟨r.1, ins, s.outs.insert b r.2.1⟩, succs)

/-- Go through the blocks once more in the order given, to keep what reaches their points. A block that
    was never visited has nothing to go through. -/
def replayLoans (ins : ExtTreeMap Nat LoanIds) : List Nat → List Loan →
    Except Miss (List Loan × List (Point × LoanPoint))
  | [], table => .ok (table, [])
  | b :: bs, table =>
    match ins.get? b with
    | none => replayLoans ins bs table
    | some ids => do
      let here ← loanBlock f types live b table ids
      let later ← replayLoans ins bs here.1
      return (later.1, here.2.2 ++ later.2)

/-- Run the pass with at most `cap` block visits. -/
def trackLoans (cap : Nat) : Except Miss LoanFacts := do
  let issued ← issueLoans f types g live.tracked
  let start : Function.LoanSets := ⟨issued, (∅ : ExtTreeMap Nat LoanIds).insert 0 ∅, ∅⟩
  let out ← Worklist.runChecked g.order (visitLoans f types live g) cap [0] start 0
  let r ← replayLoans f types live out.state.ins g.order out.state.table
  return { loans := r.1, points := r.2.foldl (fun t x => t.insert x.1 x.2) ∅, live := live,
           result := f.result.name, converged := out.converged, visits := out.visits }

end Pass

section Run

variable {f : Function} {types : TypeTable} {live : LiveFacts}

theorem issueLoans_eq (hf : f.WellFormed) (types : TypeTable) (tracked : Names) :
    issueLoans f types f.graph tracked = .ok (f.issueLoans types tracked f.graph) := by
  have hmade : f.graph.reachable.mapM (borrowsIn f types tracked) =
      .ok (f.graph.reachable.map fun b => (f.statementsOf b).flatMap fun x =>
        (f.borrows types tracked x.1).map fun row => (x.2, row)) := by
    refine mapM_ok fun b hb => ?_
    rw [borrowsIn, statementsOf_eq (hf.order_lt (hf.graph_sound.mem_reachable.mp hb))]
    rfl
  rw [issueLoans, hmade, ok_bind, ← List.flatMap_def]
  rfl

theorem visitLoans_eq (hf : f.WellFormed) {b : Nat} (hb : b ∈ f.graph.order) {s : Function.LoanSets}
    (hs : s.LoansListed (f.issueLoans types live.tracked f.graph)) :
    visitLoans f types live f.graph b s = .ok (f.visitLoans types live f.graph b s) := by
  have hlt := hf.order_lt hb
  have hinto : ((f.graph.predsOf b).filter f.graph.isReachable).foldl
      (fun ids p => ids ∪ s.outs.getD p ∅) ∅ = f.loansInto s b := rfl
  have hchecked : loanBlock f types live b s.table (f.loansInto s b) = .ok _ :=
    loanBlock_eq hs.table (Function.loansInto_listed hs b) hlt
  obtain ⟨table, out, rows, hblock⟩ : ∃ table out rows,
    f.loanBlock types live b s.table (f.loansInto s b) = (table, out, rows) := ⟨_, _, _, rfl⟩
  simp only [visitLoans, predsOf_eq hlt, succsOf_eq hlt, ok_bind, hinto, hchecked, hblock, pure_eq_ok,
    Function.visitLoans_eq hblock]
  split_ifs <;> rfl

theorem runLoans_eq (hf : f.WellFormed) (types : TypeTable) (live : LiveFacts) (cap : Nat) :
    Worklist.runChecked f.graph.order (visitLoans f types live f.graph) cap [0] (f.firstLoans types live) 0 =
      .ok (Worklist.run f.graph.order (f.visitLoans types live f.graph) cap [0]
        (f.firstLoans types live) 0) := by
  have hg := hf.graph_sound
  refine (Worklist.runChecked_single (Function.LoanSets.LoansListed (f.issueLoans types live.tracked f.graph))
    True hg.nodup (fun b hb s hs => ?_) cap hg.entry Function.firstLoans_loansListed 0).1.eq_ok trivial
  refine ⟨.of_eq (visitLoans_eq hf hb hs), Function.visitLoans_loansListed hs b, fun c hc => ?_⟩
  exact hg.closed b hb c (Worklist.mem_of_woken hc)

/-- **The rows written at the end miss no loan**, and their sets are listed. -/
theorem replayLoans_eq {ins : ExtTreeMap Nat LoanIds} {table₀ : List Loan}
    (hins : ∀ b ids, ins.get? b = some ids → Listed table₀ ids) {bs : List Nat}
    (hbs : ∀ b ∈ bs, b < f.blocks.length) {table : List Loan} (hpre : table₀ <+: table)
    (h : LoanTable (f.issueLoans types live.tracked f.graph) table) :
    replayLoans f types live ins bs table = .ok (f.replayLoans types live ins bs table) ∧
      table <+: (f.replayLoans types live ins bs table).1 ∧
      ∀ r ∈ (f.replayLoans types live ins bs table).2,
        Listed (f.replayLoans types live ins bs table).1 r.2.reaching := by
  induction bs generalizing table with
  | nil => exact ⟨rfl, List.prefix_rfl, fun r hr => nomatch hr⟩
  | cons b bs ih =>
    have ih := @ih fun c hc => hbs c (List.mem_cons_of_mem _ hc)
    unfold replayLoans Function.replayLoans
    cases hb : ins.get? b with
    | none => exact ih hpre h
    | some ids =>
      have hlisted := (hins b ids hb).mono hpre
      obtain ⟨mid, out, here, hblock⟩ : ∃ mid out here,
        f.loanBlock types live b table ids = (mid, out, here) := ⟨_, _, _, rfl⟩
      obtain ⟨hmid, hgrown, _, _, _, hrows⟩ := Function.loanBlock_spec h hlisted hblock
      obtain ⟨hlater, hgrown', hrest⟩ := ih (hpre.trans hgrown) hmid
      simp only [loanBlock_eq h hlisted (hbs b List.mem_cons_self), hblock, ok_bind, hlater, pure_eq_ok]
      refine ⟨trivial, hgrown.trans hgrown', fun r hr => ?_⟩
      rcases List.mem_append.mp hr with hr | hr
      · exact (hrows r hr).1.mono hgrown'
      · exact hrest r hr

/-- **The loan pass misses nothing.** -/
theorem trackLoans_eq (hf : f.WellFormed) (types : TypeTable) (live : LiveFacts) (cap : Nat) :
    trackLoans f types live f.graph cap = .ok (f.trackLoans f.graph types cap live) := by
  have hlast : (f.lastLoans types cap live).LoansListed (f.issueLoans types live.tracked f.graph) :=
    Function.lastLoans_loansListed hf
  have hreplay := (replayLoans_eq hlast.ins (fun b hb => hf.order_lt (b := b) hb) List.prefix_rfl
    hlast.table).1
  simp only [trackLoans, issueLoans_eq hf, ok_bind]
  refine (congrArg (fun r => r >>= _) (runLoans_eq hf types live cap)).trans ?_
  rw [ok_bind]
  exact congrArg (fun r => r >>= _) hreplay

/-- The loans that reach a point are in the table. -/
theorem reaching_listed (hf : f.WellFormed) (types : TypeTable) (live : LiveFacts) (cap : Nat) (p : Point) :
    Listed (f.trackLoans f.graph types cap live).loans
      ((f.trackLoans f.graph types cap live).reaching p) := by
  have hlast : (f.lastLoans types cap live).LoansListed (f.issueLoans types live.tracked f.graph) :=
    Function.lastLoans_loansListed hf
  have hrows := (replayLoans_eq hlast.ins (fun b hb => hf.order_lt (b := b) hb) List.prefix_rfl
    hlast.table).2.2
  rw [LoanFacts.reaching]
  cases hp : (f.trackLoans f.graph types cap live).points.get? p with
  | none => exact fun i hi => absurd hi ExtTreeSet.not_mem_empty
  | some row =>
    rw [Function.trackLoans_points] at hp
    rcases mem_of_getElem?_rows _ _ hp with ⟨r, hr, _, rfl⟩ | hnone
    · exact hrows r hr
    · cases hnone.symm.trans ExtTreeMap.getElem?_empty

end Run

end Checked

end Ownership
