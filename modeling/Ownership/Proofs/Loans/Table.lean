import Mathlib.Data.Set.Basic
import Ownership.Loans.Facts
import Ownership.Proofs.Collections

/-!
# The table of loans

The table starts with the loans that statements make and only ever grows by derived ones. Numbers of
loans are read through the table, and what they stand for does not change when the table grows:

* `LoanTable`: what is true of every table the pass works with;
* `LoanTable.deriveAll`: deriving keeps it true, and gives each parent its derived loan;
* `Hold`, `readLoans`: the references that a set of numbers stands for.
-/

namespace Ownership

open Std (ExtTreeSet)

/-! ## 1. Tables -/

theorem getElem?_of_grown {table table' : List Loan} (hp : table <+: table') {i : Nat}
    (hi : i < table.length) : table'[i]? = table[i]? := by
  obtain ⟨t, rfl⟩ := hp
  exact List.getElem?_append_left hi

/-- The table begins with the loans that statements make, lists every loan under its number, and
    every loan goes back to one of the first with its place and kind. -/
structure LoanTable (issued table : List Loan) : Prop where
  grown : issued <+: table
  numbered : ∀ i (l : Loan), table[i]? = some l → l.id = i
  rooted : ∀ l ∈ table, ∃ o, issued[l.origin]? = some o ∧ o.place = l.place ∧ o.kind = l.kind
  own : ∀ l ∈ issued, l.origin = l.id

namespace LoanTable

variable {issued table : List Loan}

theorem get_of_mem (h : LoanTable issued table) {l : Loan} (hl : l ∈ table) : table[l.id]? = some l := by
  obtain ⟨i, hi⟩ := List.mem_iff_getElem?.mp hl
  rw [h.numbered i l hi]
  exact hi

/-- What was entered later is derived. -/
theorem isDerived_of_mem {extra : List Loan} (h : LoanTable issued (issued ++ extra)) {l : Loan}
    (hl : l ∈ extra) : l.isDerived = true := by
  obtain ⟨i, hi⟩ := List.mem_iff_getElem?.mp hl
  have hid := h.numbered (issued.length + i) l (by
    rw [List.getElem?_append_right (Nat.le_add_right _ _), Nat.add_sub_cancel_left]
    exact hi)
  obtain ⟨o, ho, _⟩ := h.rooted l (List.mem_append_right _ hl)
  have hlt : l.origin < issued.length := (List.getElem?_eq_some_iff.mp ho).1
  rw [Loan.isDerived, bne_iff_ne]
  omega

/-- The loans a statement makes itself are those of the beginning. -/
theorem issuedAtPoint_eq (h : LoanTable issued table) (p : Point) :
    Loan.issuedAtPoint table p = Loan.issuedAtPoint issued p := by
  obtain ⟨extra, rfl⟩ := h.grown
  have hnone : Loan.issuedAtPoint extra p = [] := by
    refine List.filter_eq_nil_iff.mpr fun l hl => ?_
    simp [h.isDerived_of_mem hl]
  rw [Loan.issuedAtPoint, List.filter_append]
  exact (congrArg _ hnone).trans (List.append_nil _)

theorem mem_issuedAtPoint (h : LoanTable issued table) {p : Point} {l : Loan} :
    l ∈ Loan.issuedAtPoint table p ↔ l ∈ issued ∧ l.issuedAt = p := by
  rw [h.issuedAtPoint_eq, Loan.issuedAtPoint, List.mem_filter]
  refine and_congr_right fun hl => ?_
  simp [Loan.isDerived, h.own l hl]

/-! ## 2. Deriving -/

theorem derive (h : LoanTable issued table) {parent : Loan} (hp : parent ∈ table) (pt : Point)
    (holder : String) {table' : List Loan} {i : Nat}
    (hd : Loan.derive table parent pt holder = (table', i)) :
    LoanTable issued table' ∧ table <+: table' ∧
      ∃ l, table'[i]? = some l ∧ l.origin = parent.origin ∧ l.issuedAt = pt ∧
        l.holder = some holder := by
  unfold Loan.derive at hd
  split at hd
  · rename_i l hfind
    cases hd
    have hmem := List.mem_of_find?_eq_some hfind
    have hmatch := List.find?_some hfind
    simp only [Bool.and_eq_true, beq_iff_eq] at hmatch
    obtain ⟨⟨⟨_, horigin⟩, hpt⟩, hholder⟩ := hmatch
    exact ⟨h, List.prefix_rfl, l, h.get_of_mem hmem, horigin, hpt, hholder⟩
  · cases hd
    refine ⟨⟨h.grown.trans (List.prefix_append _ _), fun i l hl => ?_, fun l hl => ?_, h.own⟩,
      List.prefix_append _ _, _, List.getElem?_concat_length, rfl, rfl, rfl⟩
    · rcases Nat.lt_or_ge i table.length with hlt | hge
      · rw [List.getElem?_append_left hlt] at hl
        exact h.numbered i l hl
      · rw [List.getElem?_append_right hge, List.getElem?_singleton] at hl
        split_ifs at hl with hz
        cases hl
        show table.length = i
        omega
    · rcases List.mem_append.mp hl with hl | hl
      · exact h.rooted l hl
      · cases List.mem_singleton.mp hl
        exact h.rooted parent hp

/-- The derived loan of a parent. -/
def IsDerivedFrom (table : List Loan) (parent : Loan) (pt : Point) (holder : String) (i : Nat) : Prop :=
  ∃ l, table[i]? = some l ∧ l.origin = parent.origin ∧ l.issuedAt = pt ∧ l.holder = some holder

/-- **Deriving keeps the table sound**, and gives each parent its derived loan. -/
theorem deriveAll (pt : Point) (holder : String) {parents : List Loan} (h : LoanTable issued table)
    (hp : ∀ l ∈ parents, l ∈ table) {table' : List Loan} {is : List Nat}
    (hd : Loan.deriveAll pt holder table parents = (table', is)) :
    LoanTable issued table' ∧ table <+: table' ∧
      (∀ i ∈ is, ∃ l ∈ parents, IsDerivedFrom table' l pt holder i) ∧
      ∀ l ∈ parents, ∃ i ∈ is, IsDerivedFrom table' l pt holder i := by
  induction parents generalizing table is with
  | nil =>
    cases hd
    exact ⟨h, List.prefix_rfl, fun i hi => absurd hi List.not_mem_nil,
      fun l hl => absurd hl List.not_mem_nil⟩
  | cons l ls ih =>
    obtain ⟨mid, i, hone⟩ : ∃ mid i, Loan.derive table l pt holder = (mid, i) := ⟨_, _, rfl⟩
    obtain ⟨last, js, hrest⟩ : ∃ last js, Loan.deriveAll pt holder mid ls = (last, js) := ⟨_, _, rfl⟩
    rw [Loan.deriveAll, hone] at hd
    simp only [hrest] at hd
    cases hd
    obtain ⟨hmid, hpre, x, hx, hfrom⟩ := h.derive (hp l List.mem_cons_self) pt holder hone
    obtain ⟨hlast, hpre', hback, hforth⟩ := ih hmid
      (fun k hk => hpre.subset (hp k (List.mem_cons_of_mem _ hk))) hrest
    have hlt : i < mid.length := (List.getElem?_eq_some_iff.mp hx).1
    have hfirst : IsDerivedFrom table' l pt holder i :=
      ⟨x, (getElem?_of_grown hpre' hlt).trans hx, hfrom⟩
    refine ⟨hlast, hpre.trans hpre', fun j hj => ?_, fun k hk => ?_⟩
    · rcases List.mem_cons.mp hj with rfl | hj
      · exact ⟨l, List.mem_cons_self, hfirst⟩
      · obtain ⟨k, hk, hj⟩ := hback j hj
        exact ⟨k, List.mem_cons_of_mem _ hk, hj⟩
    · rcases List.mem_cons.mp hk with rfl | hk
      · exact ⟨i, List.mem_cons_self, hfirst⟩
      · obtain ⟨j, hj, hk⟩ := hforth k hk
        exact ⟨j, List.mem_cons_of_mem _ hj, hk⟩

end LoanTable

/-! ## 3. Sets of loans -/

/-- A reference as the pass keeps it: the loan it goes back to, where its holder got it, and the
    holder. -/
structure Hold where
  origin : Nat
  madeAt : Point
  holder : String
  deriving DecidableEq, Repr

/-- The reference a loan stands for, if something holds it. -/
def Loan.hold? (l : Loan) : Option Hold := l.holder.map fun h => ⟨l.origin, l.issuedAt, h⟩

theorem Loan.hold?_eq_some {l : Loan} {x : Hold} :
    l.hold? = some x ↔ l.origin = x.origin ∧ l.issuedAt = x.madeAt ∧ l.holder = some x.holder := by
  obtain ⟨o, p, h⟩ := x
  rw [hold?, Option.map_eq_some_iff]
  constructor
  · intro hx
    obtain ⟨k, hk, he⟩ := hx
    cases he
    exact ⟨rfl, rfl, hk⟩
  · intro hx
    obtain ⟨rfl, rfl, hk⟩ := hx
    exact ⟨h, hk, rfl⟩

/-- The references that the numbers of a set stand for. -/
def readLoans (table : List Loan) (ids : LoanIds) : Set Hold :=
  {x | ∃ i ∈ ids, ∃ l, table[i]? = some l ∧ l.hold? = some x}

/-- Every number of the set is one of a loan of the table. -/
def Listed (table : List Loan) (ids : LoanIds) : Prop := ∀ i ∈ ids, i < table.length

theorem Listed.mono {table table' : List Loan} {ids : LoanIds} (h : Listed table ids)
    (hp : table <+: table') : Listed table' ids :=
  fun i hi => Nat.lt_of_lt_of_le (h i hi) hp.length_le

/-- What numbers stand for does not change when the table grows. -/
theorem readLoans_of_grown {table table' : List Loan} {ids : LoanIds} (h : Listed table ids)
    (hp : table <+: table') : readLoans table' ids = readLoans table ids := by
  ext x
  refine exists_congr fun i => and_congr_right fun hi => ?_
  rw [getElem?_of_grown hp (h i hi)]

end Ownership
