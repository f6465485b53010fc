import Ownership.Proofs.Flow.Coincidence
import Ownership.Proofs.Loans.Table

/-!
# How references pass over statements

What the pass does to sets of loan numbers is a rule on the references these stand for. A statement
ends the references of a root that it replaces, adds those it makes and those it hands on to its
destination, and keeps only what a live root holds.

* `Function.Flows`: a statement hands the references of a root on;
* `Function.holdRule`, `holdRule_additive`: the rule of one point;
* `loanStep_spec`, `loanSteps_spec`, `loanBlock_spec`: statements and blocks follow the rule.
-/

namespace Ownership

open Std (ExtTreeSet ExtTreeMap)

/-! ## 1. Handing on -/

namespace Function

variable (f : Function) (types : TypeTable) (tracked : Names)

/-- The statement hands the references of the root on to its destination: it borrows through a
    reference in the root, or it copies, clones or moves a place of the root that may hold references
    into a destination that keeps them. -/
def Flows : Statement → String → Prop
  | .borrow _ p _, r => p.hasDeref = true ∧ p.name ∈ tracked ∧ p.name = r
  | .assign d v, r => f.keepsRefs types tracked d = true ∧
      ∃ p, (v.cloned? = some p ∨ .copy p ∈ v.operands ∨ .move p ∈ v.operands) ∧
        f.handsOn types tracked p = true ∧ p.name = r
  | .move _ p, r => f.handsOn types tracked p = true ∧ p.name = r
  | .drop _, _ => False
  | .eval _, _ => False

variable {f types tracked}

theorem mem_passedPlaces {ops : List Operand} {p : Place} :
    p ∈ passedPlaces ops ↔ .copy p ∈ ops ∨ .move p ∈ ops := by
  rw [passedPlaces, List.mem_filterMap]
  constructor
  · intro hx
    obtain ⟨o, ho, he⟩ := hx
    cases o with
    | copy q =>
      cases he
      exact Or.inl ho
    | move q =>
      cases he
      exact Or.inr ho
    | ref q k => cases he
    | literal v => cases he
  · intro hx
    rcases hx with h | h
    · exact ⟨_, h, rfl⟩
    · exact ⟨_, h, rfl⟩

theorem mem_handedOn {s : Statement} {r : String} :
    r ∈ f.handedOn types tracked s ↔ f.Flows types tracked s r := by
  cases s with
  | borrow d p k =>
    rw [handedOn, Flows]
    split_ifs with h
    · rw [Bool.and_eq_true] at h
      rw [List.mem_singleton, eq_comm]
      exact ⟨fun e => ⟨h.1, h.2, e⟩, fun e => e.2.2⟩
    · refine iff_of_false List.not_mem_nil fun e => h ?_
      rw [Bool.and_eq_true]
      exact ⟨e.1, e.2.1⟩
  | assign d v =>
    rw [handedOn, Flows]
    split_ifs with h
    · simp only [List.mem_map, List.mem_filter, List.mem_append, Option.mem_toList, mem_passedPlaces, h,
        true_and, and_assoc]
    · exact iff_of_false List.not_mem_nil fun e => h e.1
  | move d p =>
    rw [handedOn, Flows]
    split_ifs with h
    · rw [List.mem_singleton, eq_comm]
      exact ⟨fun e => ⟨h, e⟩, fun e => e.2⟩
    · exact iff_of_false List.not_mem_nil fun e => h e.1
  | drop p => exact iff_of_false List.not_mem_nil id
  | eval v => exact iff_of_false List.not_mem_nil id

end Function

/-- The root a statement writes. -/
def Statement.destName (s : Statement) : String := (s.dest?.map Place.name).getD ""

/-! ## 2. The rule -/

namespace Function

variable (f : Function) (types : TypeTable) (live : LiveFacts)

/-- The references behind a point, from those before it. -/
def holdRule (p : Point) (A : Set Hold) : Set Hold :=
  match f.statementAt? p with
  | some s =>
    {x | (x.holder ∈ live.liveAfter p ∧
        ∃ l ∈ f.issueLoans types live.tracked f.graph, l.issuedAt = p ∧ l.hold? = some x) ∨
      ∃ y ∈ A, x.holder ∈ live.liveAfter p ∧ ((y = x ∧ y.holder ∉ s.killed) ∨
        (f.Flows types live.tracked s y.holder ∧ x = ⟨y.origin, p, s.destName⟩))}
  | none =>
    {x | False ∨ ∃ y ∈ A, (f.block p.block).terminator ≠ .ret ∧
      y = x ∧ x.holder ∈ live.liveOut.getD p.block ∅}

variable {f types live}

theorem holdRule_additive (p : Point) : Additive (f.holdRule types live p) := by
  unfold holdRule
  cases f.statementAt? p with
  | some s => exact Additive.of_gen _ _
  | none => exact Additive.of_gen _ _

/-! ## 3. The first loans -/

theorem issueLoans_table (tracked : Names) (g : Graph) :
    LoanTable (f.issueLoans types tracked g) (f.issueLoans types tracked g) := by
  have hget : ∀ i (l : Loan), (f.issueLoans types tracked g)[i]? = some l → l.id = i ∧ l.origin = i := by
    intro i l hl
    rw [issueLoans, List.getElem?_map, List.getElem?_zipIdx, Option.map_map,
      Option.map_eq_some_iff] at hl
    obtain ⟨⟨pt, q, k, h⟩, _, rfl⟩ := hl
    exact ⟨Nat.zero_add i, Nat.zero_add i⟩
  have hmem : ∀ l ∈ f.issueLoans types tracked g,
      (f.issueLoans types tracked g)[l.origin]? = some l ∧ l.origin = l.id := by
    intro l hl
    obtain ⟨i, hi⟩ := List.mem_iff_getElem?.mp hl
    obtain ⟨hid, horigin⟩ := hget i l hi
    exact ⟨horigin ▸ hi, horigin.trans hid.symm⟩
  exact ⟨List.prefix_rfl, fun i l hl => (hget i l hl).1, fun l hl => ⟨l, (hmem l hl).1, rfl, rfl⟩,
    fun l hl => (hmem l hl).2⟩

end Function

/-! ## 4. Statements -/

theorem Loan.isHeldIn_iff {l : Loan} {x : Hold} (h : l.hold? = some x) (roots : Names) :
    l.isHeldIn roots = true ↔ x.holder ∈ roots := by
  rw [Loan.isHeldIn, (Loan.hold?_eq_some.mp h).2.2]
  exact Iff.rfl

theorem mem_keep {table : List Loan} {ids : LoanIds} {roots : Names} {i : Nat} :
    i ∈ Loan.keep table ids roots ↔
      i ∈ ids ∧ ∃ l, table[i]? = some l ∧ l.isHeldIn roots = true := by
  rw [Loan.keep, mem_filter_iff, Option.any_eq_true]

/-- Keeping what the named roots hold. -/
theorem readLoans_keep {table : List Loan} {ids : LoanIds} {roots : Names} :
    readLoans table (Loan.keep table ids roots) = {x | x ∈ readLoans table ids ∧ x.holder ∈ roots} := by
  ext x
  constructor
  · intro h
    obtain ⟨i, hi, l, hl, hx⟩ := h
    obtain ⟨hi, l', hl', hheld⟩ := mem_keep.mp hi
    cases hl.symm.trans hl'
    exact ⟨⟨i, hi, l, hl, hx⟩, (Loan.isHeldIn_iff hx roots).mp hheld⟩
  · intro h
    obtain ⟨⟨i, hi, l, hl, hx⟩, hheld⟩ := h
    exact ⟨i, mem_keep.mpr ⟨hi, l, hl, (Loan.isHeldIn_iff hx roots).mpr hheld⟩, l, hl, hx⟩

theorem mem_select {table : List Loan} {ids : LoanIds} {l : Loan} :
    l ∈ Loan.select table ids ↔ ∃ i ∈ ids, table[i]? = some l := by
  simp only [Loan.select, List.mem_filterMap, ExtTreeSet.mem_toList]

theorem mem_insertMany_iff {ids : LoanIds} {is : List Nat} {i : Nat} :
    i ∈ ids.insertMany is ↔ i ∈ ids ∨ i ∈ is := by
  rw [ExtTreeSet.mem_insertMany_list, List.contains_iff_mem]

namespace Function

variable {f : Function} {types : TypeTable} {live : LiveFacts} {issued table table' : List Loan}
  {ids : LoanIds} {s : Statement} {p : Point}

theorem mem_parents {l : Loan} : l ∈ f.parents types live table ids s ↔
    ∃ y, l.hold? = some y ∧ f.Flows types live.tracked s y.holder ∧ ∃ i ∈ ids, table[i]? = some l := by
  simp only [parents, List.mem_flatMap, List.mem_filter, mem_select, beq_iff_eq, mem_handedOn]
  constructor
  · intro h
    obtain ⟨r, hr, hi, hh⟩ := h
    exact ⟨⟨l.origin, l.issuedAt, r⟩, Loan.hold?_eq_some.mpr ⟨rfl, rfl, hh⟩, hr, hi⟩
  · intro h
    obtain ⟨y, hy, hr, hi⟩ := h
    exact ⟨y.holder, hr, hi, (Loan.hold?_eq_some.mp hy).2.2⟩

/-- What a statement leaves of the loans before it. -/
def left (table : List Loan) (ids : LoanIds) (s : Statement) : LoanIds :=
  ids.filter fun i => !table[i]?.any fun l => l.isHeldIn s.killed

theorem mem_left (hl : Listed table ids) {i : Nat} : i ∈ left table ids s ↔
    i ∈ ids ∧ ∃ l, table[i]? = some l ∧ l.isHeldIn s.killed = false := by
  rw [left, mem_filter_iff]
  refine and_congr_right fun hi => ?_
  rw [List.getElem?_eq_getElem (hl i hi)]
  simp

/-- The numbers of the loans that the statement makes for a holder. -/
def madeIds (table : List Loan) (p : Point) : List Nat :=
  ((Loan.issuedAtPoint table p).filter fun l => !l.isTemporary).map Loan.id

theorem mem_madeIds (h : LoanTable issued table) {i : Nat} : i ∈ madeIds table p ↔
    ∃ l ∈ issued, l.issuedAt = p ∧ table[i]? = some l ∧ ∃ x, l.hold? = some x := by
  simp only [madeIds, List.mem_map, List.mem_filter, h.mem_issuedAtPoint, Loan.isTemporary,
    Bool.not_eq_true', Option.isNone_eq_false_iff, and_assoc]
  refine exists_congr fun l => and_congr_right fun hl => and_congr_right fun _ => ?_
  have hget := h.get_of_mem (h.grown.subset hl)
  have hheld : l.holder.isSome = true ↔ ∃ x, l.hold? = some x := by
    rw [← Option.isSome_iff_exists, Loan.hold?, Option.isSome_map]
  constructor
  · intro hex
    obtain ⟨hs, rfl⟩ := hex
    exact ⟨hget, hheld.mp hs⟩
  · intro hex
    obtain ⟨hi, hx⟩ := hex
    exact ⟨hheld.mpr hx, h.numbered i l hi⟩

/-- A number of a list stands for the reference. -/
def Reads (table : List Loan) (is : List Nat) (x : Hold) : Prop :=
  ∃ i ∈ is, ∃ l, table[i]? = some l ∧ l.hold? = some x

theorem mem_readLoans_insertMany {is : List Nat} {x : Hold} :
    x ∈ readLoans table (ids.insertMany is) ↔ x ∈ readLoans table ids ∨ Reads table is x := by
  simp only [readLoans, Reads, mem_insertMany_iff, or_and_right, exists_or]
  exact Iff.rfl

theorem mem_readLoans_left (hl : Listed table ids) (hp : table <+: table') {x : Hold} :
    x ∈ readLoans table' (left table ids s) ↔ x ∈ readLoans table ids ∧ x.holder ∉ s.killed := by
  have hget : ∀ i ∈ ids, table'[i]? = table[i]? := fun i hi => getElem?_of_grown hp (hl i hi)
  constructor
  · intro h
    obtain ⟨i, hi, l, htl, hx⟩ := h
    obtain ⟨hi, l', hl', hkill⟩ := (mem_left hl).mp hi
    rw [hget i hi] at htl
    cases htl.symm.trans hl'
    refine ⟨⟨i, hi, l, htl, hx⟩, fun hmem => ?_⟩
    rw [(Loan.isHeldIn_iff hx _).mpr hmem] at hkill
    cases hkill
  · intro h
    obtain ⟨⟨i, hi, l, htl, hx⟩, hkill⟩ := h
    refine ⟨i, (mem_left hl).mpr ⟨hi, l, htl, ?_⟩, l, (hget i hi).trans htl, hx⟩
    rw [← Loan.isHeldIn_iff hx, Bool.not_eq_true] at hkill
    exact hkill

theorem reads_madeIds (h : LoanTable issued table) (hp : table <+: table') {x : Hold} :
    Reads table' (madeIds table p) x ↔ ∃ l ∈ issued, l.issuedAt = p ∧ l.hold? = some x := by
  constructor
  · intro hex
    obtain ⟨i, hi, l, htl, hx⟩ := hex
    obtain ⟨l', hissued, hpt, hl', _⟩ := (mem_madeIds h).mp hi
    rw [getElem?_of_grown hp (List.getElem?_eq_some_iff.mp hl').1] at htl
    cases htl.symm.trans hl'
    exact ⟨l, hissued, hpt, hx⟩
  · intro hex
    obtain ⟨l, hissued, hpt, hx⟩ := hex
    have hget := h.get_of_mem (h.grown.subset hissued)
    refine ⟨l.id, (mem_madeIds h).mpr ⟨l, hissued, hpt, hget, x, hx⟩, l, ?_, hx⟩
    exact (getElem?_of_grown hp (List.getElem?_eq_some_iff.mp hget).1).trans hget

theorem reads_derived {derived : List Nat} {holder : String} {x : Hold}
    (hback : ∀ i ∈ derived, ∃ l ∈ f.parents types live table ids s,
      LoanTable.IsDerivedFrom table' l p holder i)
    (hforth : ∀ l ∈ f.parents types live table ids s, ∃ i ∈ derived,
      LoanTable.IsDerivedFrom table' l p holder i) :
    Reads table' derived x ↔ ∃ y ∈ readLoans table ids, f.Flows types live.tracked s y.holder ∧
      x = ⟨y.origin, p, holder⟩ := by
  constructor
  · intro h
    obtain ⟨i, hi, l, htl, hx⟩ := h
    obtain ⟨parent, hparent, l', hl', horigin, hpt, hholder⟩ := hback i hi
    cases htl.symm.trans hl'
    obtain ⟨y, hy, hflow, j, hj, htj⟩ := mem_parents.mp hparent
    refine ⟨y, ⟨j, hj, parent, htj, hy⟩, hflow, ?_⟩
    have hsame : l.hold? = some ⟨y.origin, p, holder⟩ :=
      Loan.hold?_eq_some.mpr ⟨horigin.trans (Loan.hold?_eq_some.mp hy).1, hpt, hholder⟩
    exact Option.some.inj (hx.symm.trans hsame)
  · intro h
    obtain ⟨y, ⟨j, hj, parent, htj, hy⟩, hflow, rfl⟩ := h
    obtain ⟨i, hi, l, htl, horigin, hpt, hholder⟩ :=
      hforth parent (mem_parents.mpr ⟨y, hy, hflow, j, hj, htj⟩)
    exact ⟨i, hi, l, htl,
      Loan.hold?_eq_some.mpr ⟨horigin.trans (Loan.hold?_eq_some.mp hy).1, hpt, hholder⟩⟩

/-- The table and the loans derived by a statement. -/
def derivedAt (f : Function) (types : TypeTable) (live : LiveFacts) (p : Point) (s : Statement)
    (table : List Loan) (ids : LoanIds) : List Loan × List Nat :=
  Loan.deriveAll p s.destName table (f.parents types live table ids s)

theorem loanStep_eq : f.loanStep types live p s table ids =
    ((f.derivedAt types live p s table ids).1,
      Loan.keep (f.derivedAt types live p s table ids).1
        (((left table ids s).insertMany (madeIds table p)).insertMany
          (f.derivedAt types live p s table ids).2) (live.liveAfter p),
      ⟨ids, s.killed, (f.derivedAt types live p s table ids).2⟩) := rfl

theorem parents_sub {l : Loan} (hl : l ∈ f.parents types live table ids s) : l ∈ table := by
  obtain ⟨_, _, _, i, _, hi⟩ := mem_parents.mp hl
  exact List.mem_of_getElem? hi

/-- Over a statement the table stays sound and grows, and the loans behind it are listed. -/
theorem loanStep_table (f : Function) (types : TypeTable) (live : LiveFacts) (p : Point)
    (s : Statement) (ids : LoanIds) (h : LoanTable issued table) :
    LoanTable issued (f.loanStep types live p s table ids).1 ∧
      table <+: (f.loanStep types live p s table ids).1 ∧
      Listed (f.loanStep types live p s table ids).1 (f.loanStep types live p s table ids).2.1 := by
  rw [loanStep_eq]
  obtain ⟨htable, hpre, _⟩ := h.deriveAll p s.destName (fun l hl => parents_sub hl)
    (rfl : _ = ((f.derivedAt types live p s table ids).1, (f.derivedAt types live p s table ids).2))
  refine ⟨htable, hpre, fun i hi => ?_⟩
  obtain ⟨_, l, hi, _⟩ := mem_keep.mp hi
  exact (List.getElem?_eq_some_iff.mp hi).1

/-- **Over a statement** the table stays sound, and the references follow the rule. -/
theorem loanStep_spec {out : LoanIds} {row : LoanPoint} (hs : f.statementAt? p = some s)
    (h : LoanTable (f.issueLoans types live.tracked f.graph) table) (hl : Listed table ids)
    (he : f.loanStep types live p s table ids = (table', out, row)) :
    LoanTable (f.issueLoans types live.tracked f.graph) table' ∧ table <+: table' ∧
      Listed table' out ∧ readLoans table' out = f.holdRule types live p (readLoans table ids) ∧
      row.reaching = ids := by
  obtain ⟨htable, hpre, hlisted⟩ := f.loanStep_table types live p s ids h
  rw [he] at htable hpre hlisted
  cases he.symm.trans loanStep_eq
  obtain ⟨_, _, hback, hforth⟩ := h.deriveAll p s.destName (fun l hl => parents_sub hl)
    (rfl : _ = ((f.derivedAt types live p s table ids).1, (f.derivedAt types live p s table ids).2))
  refine ⟨htable, hpre, hlisted, ?_, rfl⟩
  rw [readLoans_keep]
  ext x
  unfold holdRule
  rw [hs]
  simp only [Set.mem_ofPred_eq, mem_readLoans_insertMany, mem_readLoans_left hl hpre,
    reads_madeIds h hpre, reads_derived hback hforth]
  constructor
  · intro hex
    obtain ⟨(⟨hx, hkill⟩ | hmade) | ⟨y, hy, hflow, rfl⟩, hlive⟩ := hex
    · exact Or.inr ⟨x, hx, hlive, Or.inl ⟨rfl, hkill⟩⟩
    · exact Or.inl ⟨hlive, hmade⟩
    · exact Or.inr ⟨y, hy, hlive, Or.inr ⟨hflow, rfl⟩⟩
  · intro hex
    rcases hex with ⟨hlive, hmade⟩ | ⟨y, hy, hlive, ⟨rfl, hkill⟩ | ⟨hflow, rfl⟩⟩
    · exact ⟨Or.inl (Or.inr hmade), hlive⟩
    · exact ⟨Or.inl (Or.inl ⟨hy, hkill⟩), hlive⟩
    · exact ⟨Or.inr ⟨y, hy, hflow, rfl⟩, hlive⟩

/-! ## 5. Blocks -/

/-- The loans of each row stand for the references that the rule gives for its point, from those
    before the block. -/
def RowsFollow (f : Function) (types : TypeTable) (live : LiveFacts) (table : List Loan) (b : Nat)
    (A : Set Hold) (rows : List (Point × LoanPoint)) : Prop :=
  ∀ r ∈ rows, Listed table r.2.reaching ∧
    readLoans table r.2.reaching = through (f.holdRule types live) b r.1.stmt A

theorem RowsFollow.mono {b : Nat} {A : Set Hold} {rows : List (Point × LoanPoint)}
    (h : f.RowsFollow types live table b A rows) (hp : table <+: table') :
    f.RowsFollow types live table' b A rows := by
  intro r hr
  obtain ⟨hlisted, hread⟩ := h r hr
  exact ⟨hlisted.mono hp, (readLoans_of_grown hlisted hp).trans hread⟩

theorem statementsOf_drop {b k : Nat} (hk : k < (f.block b).statements.length) :
    (f.statementsOf b).drop k =
      ((f.block b).statements[k], ⟨b, k⟩) :: (f.statementsOf b).drop (k + 1) := by
  rw [List.drop_eq_getElem_cons (by simpa [statementsOf] using hk)]
  simp [statementsOf]

/-- Over the statements of a block from the `k`-th on. -/
theorem loanSteps_spec {b : Nat} {A : Set Hold} (n : Nat) :
    ∀ {k : Nat} {table table' : List Loan} {ids out : LoanIds} {rows : List (Point × LoanPoint)},
      k + n = (f.block b).statements.length →
      LoanTable (f.issueLoans types live.tracked f.graph) table → Listed table ids →
      readLoans table ids = through (f.holdRule types live) b k A →
      f.loanSteps types live ((f.statementsOf b).drop k) table ids = (table', out, rows) →
      LoanTable (f.issueLoans types live.tracked f.graph) table' ∧ table <+: table' ∧
        Listed table' out ∧ readLoans table' out = through (f.holdRule types live) b (k + n) A ∧
        rows.map Prod.fst = (List.range' k n).map (Point.mk b) ∧
        f.RowsFollow types live table' b A rows := by
  induction n with
  | zero =>
    intro k table table' ids out rows hk h hl hA he
    have hdrop : (f.statementsOf b).drop k = [] :=
      List.drop_of_length_le (by simp [statementsOf, ← hk])
    rw [hdrop] at he
    cases he
    exact ⟨h, List.prefix_rfl, hl, hA, rfl, fun r hr => absurd hr List.not_mem_nil⟩
  | succ n ih =>
    intro k table table' ids out rows hk h hl hA he
    have hlt : k < (f.block b).statements.length := by omega
    have hs : f.statementAt? ⟨b, k⟩ = some (f.block b).statements[k] := List.getElem?_eq_getElem hlt
    obtain ⟨mid, ids₁, row, hstep⟩ : ∃ mid ids₁ row,
        f.loanStep types live ⟨b, k⟩ (f.block b).statements[k] table ids = (mid, ids₁, row) :=
      ⟨_, _, _, rfl⟩
    obtain ⟨last, ids₂, more, hrest⟩ : ∃ last ids₂ more,
        f.loanSteps types live ((f.statementsOf b).drop (k + 1)) mid ids₁ = (last, ids₂, more) :=
      ⟨_, _, _, rfl⟩
    rw [statementsOf_drop hlt, loanSteps, hstep] at he
    simp only [hrest] at he
    cases he
    obtain ⟨hmid, hpre, hlisted, hread, hreach⟩ := loanStep_spec hs h hl hstep
    have hnext : readLoans mid ids₁ = through (f.holdRule types live) b (k + 1) A := by
      rw [hread, hA, through]
    obtain ⟨hlast, hpre', hout, hfinal, hkeys, hrows⟩ := ih (by omega) hmid hlisted hnext hrest
    refine ⟨hlast, hpre.trans hpre', hout, ?_, ?_, fun r hr => ?_⟩
    · rw [hfinal, Nat.add_right_comm, Nat.add_assoc]
    · rw [List.map_cons, hkeys, List.range'_succ, List.map_cons]
    · rcases List.mem_cons.mp hr with rfl | hr
      · show Listed table' row.reaching ∧ readLoans table' row.reaching = _
        have hall := hpre.trans hpre'
        rw [hreach, readLoans_of_grown hl hall]
        exact ⟨hl.mono hall, hA⟩
      · exact hrows r hr

theorem loanExit_read (types : TypeTable) {b : Nat} (hb : p = f.exitOf b) :
    readLoans table (f.loanExit live b table ids) = f.holdRule types live p (readLoans table ids) := by
  have hnone : f.statementAt? p = none := by
    rw [hb]
    exact List.getElem?_eq_none (Nat.le_refl _)
  have hblock : p.block = b := by rw [hb]; rfl
  unfold holdRule loanExit
  rw [hnone]
  ext x
  simp only [Set.mem_ofPred_eq, false_or, hblock]
  cases (f.block b).terminator with
  | ret =>
    refine iff_of_false ?_ ?_
    · intro h
      obtain ⟨i, hi, _⟩ := h
      exact ExtTreeSet.not_mem_empty hi
    · intro h
      obtain ⟨y, _, hne, _⟩ := h
      exact hne rfl
  | goto t => simp [readLoans_keep]
  | branch c y n => simp [readLoans_keep]
  | unreachable => simp [readLoans_keep]

theorem loanExit_listed {b : Nat} (hl : Listed table ids) : Listed table (f.loanExit live b table ids) := by
  unfold loanExit
  intro i hi
  split at hi
  · exact absurd hi ExtTreeSet.not_mem_empty
  · exact hl i (mem_keep.mp hi).1

/-- **Over a block** the table stays sound, the references follow the rules of its points, and there
    is one row for each of its points. -/
theorem loanBlock_spec {b : Nat} {out : LoanIds} {rows : List (Point × LoanPoint)}
    (h : LoanTable (f.issueLoans types live.tracked f.graph) table) (hl : Listed table ids)
    (he : f.loanBlock types live b table ids = (table', out, rows)) :
    LoanTable (f.issueLoans types live.tracked f.graph) table' ∧ table <+: table' ∧
      Listed table' out ∧
      readLoans table' out = f.throughBlock (f.holdRule types live) b (readLoans table ids) ∧
      rows.map Prod.fst = f.pointsOf b ∧
      f.RowsFollow types live table' b (readLoans table ids) rows := by
  obtain ⟨last, ids₁, body, hsteps⟩ : ∃ last ids₁ body,
      f.loanSteps types live (f.statementsOf b) table ids = (last, ids₁, body) := ⟨_, _, _, rfl⟩
  unfold loanBlock at he
  rw [hsteps] at he
  cases he
  obtain ⟨hlast, hpre, hlisted, hread, hkeys, hrows⟩ :=
    loanSteps_spec (A := readLoans table ids) _ (Nat.zero_add _) h hl rfl hsteps
  rw [Nat.zero_add] at hread
  refine ⟨hlast, hpre, loanExit_listed hlisted, ?_, ?_, fun r hr => ?_⟩
  · rw [loanExit_read types rfl, hread]
    rfl
  · rw [List.map_append, hkeys, pointsOf, Graph.points, List.range_succ, List.map_append,
      List.range_eq_range']
    rfl
  · rcases List.mem_append.mp hr with hr | hr
    · exact hrows r hr
    · cases List.mem_singleton.mp hr
      exact ⟨hlisted, hread⟩

end Function

end Ownership
