import Ownership.Proofs.Conflict.Pairs
import Ownership.Proofs.DeadCode

/-!
# Loans within one statement

The loans that a statement makes are in use for the rest of it, up to a point. A later borrow of the same
statement is set against them, with the exception for places behind the holder's old value, although the
holder is only written when all borrows are made. The write itself is set against the loans that arrive
at the statement, so a loan that it makes counts only if it was made in an earlier turn as well.

* `loans_of_accessPoints`: the accesses of a point make the loans of its statement, in order;
* `point_of_borrowed`: a new loan is reported where it is made;
* `statement_loans_reported`: which pairs of loans of a statement are reported, and which writes;
* `statement_loans_missed`: both exceptions let something pass.
-/

namespace Ownership

open Std (ExtTreeSet)
open scoped List

variable {f : Function} {types : TypeTable} {cap : Nat} {p : Point} {a b l old new : Loan}

/-! ## 1. Pairs by their origins -/

theorem pairKey_comm : pairKey a b = pairKey b a := by
  rw [pairKey, pairKey, min_comm, max_comm]

theorem pairKey_congr (h : a.origin = b.origin) : pairKey a l = pairKey b l := by
  rw [pairKey, pairKey, h]

theorem origins_of_pairKey (h : pairKey old new = pairKey a b) :
    (old.origin = a.origin ∧ new.origin = b.origin) ∨ (old.origin = b.origin ∧ new.origin = a.origin) := by
  obtain ⟨hmin, hmax⟩ := Prod.mk.inj h
  omega

/-- Loans of different origins exclude each other unless both are shared. -/
theorem Loan.excludes_of_unique (hne : a.origin ≠ b.origin) (hkind : a.kind = .unique ∨ b.kind = .unique) :
    a.excludes b = true := by
  rw [excludes, Bool.and_eq_true, bne_iff_ne]
  refine ⟨hne, ?_⟩
  rcases hkind with hk | hk
  · rw [hk, show (LoanKind.unique == .shared) = false from rfl, Bool.and_false, Bool.not_false]
  · rw [hk, show (LoanKind.unique == .shared) = false from rfl, Bool.false_and, Bool.not_false]

/-! ## 2. The loans of a point -/

theorem mem_issued (hf : f.WellFormed) : l ∈ (f.analyse types cap).loans.issued p ↔
    l ∈ f.issueLoans types (f.tracked types) f.graph ∧ l.issuedAt = p :=
  (analyse_table hf types cap).mem_issuedAtPoint

theorem issued_sorted (hf : f.WellFormed) :
    ((f.analyse types cap).loans.issued p).Pairwise fun a b => a.id < b.id := by
  rw [LoanFacts.issued, (analyse_table hf types cap).issuedAtPoint_eq]
  exact Function.issueLoans_sorted.filter _

/-- A loan of the statement is told by the loan that it goes back to. -/
theorem eq_of_issued (hf : f.WellFormed) (ha : a ∈ (f.analyse types cap).loans.issued p)
    (hl : l ∈ f.issueLoans types (f.tracked types) f.graph) (h : l.origin = a.origin) : l = a := by
  have ha := ((mem_issued hf).mp ha).1
  exact issued_unique hl ha ((issued_origin hl).symm.trans (h.trans (issued_origin ha)))

/-- The accesses of a point make the loans of its statement, in order. -/
theorem loans_of_accessPoints (hf : f.WellFormed) {as : List Access}
    (h : (p, as) ∈ f.accessPoints f.graph types (f.analyse types cap).loans) :
    as.filterMap Access.loan? = (f.analyse types cap).loans.issued p := by
  obtain ⟨b, hb, h⟩ := List.mem_flatMap.mp h
  rcases List.mem_append.mp h with h | h
  · obtain ⟨⟨s, pt⟩, hs, he⟩ := List.mem_map.mp h
    cases he
    obtain ⟨rfl, hstmt⟩ := Function.mem_statementsOf.mp hs
    have hlen : ((f.analyse types cap).loans.issued p).length =
        (f.borrows types (f.tracked types) s).length := by
      rw [LoanFacts.issued, (analyse_table hf types cap).issuedAtPoint_eq]
      exact Function.issued_length hb hstmt
    exact Function.loans_of_accesses hlen
  · -- a terminator makes no loans, and no statement stands at its point
    cases List.mem_singleton.mp h
    have hleft : ((f.block b).terminator.accesses).filterMap Access.loan? = [] := by
      cases (f.block b).terminator with
      | branch c yes no => cases h : c.place? <;> simp [Terminator.accesses, Access.loan?, h]
      | goto t => rfl
      | ret => rfl
      | unreachable => rfl
    have hright : (f.analyse types cap).loans.issued (f.exitOf b) = [] := by
      refine List.eq_nil_iff_forall_not_mem.mpr fun l hl => ?_
      obtain ⟨hl, hat⟩ := (mem_issued hf).mp hl
      obtain ⟨s, hs, _⟩ := Function.exists_statement_of_issued hl
      rw [hat, show f.statementAt? (f.exitOf b) = none from List.getElem?_eq_none (Nat.le_refl _)] at hs
      cases hs
    exact hleft.trans hright.symm

/-- The loans of a point, cut where one of them is made. -/
theorem issued_split (hf : f.WellFormed) {done rest : List Access} {q : Place}
    (h : (p, done ++ .borrow q new :: rest) ∈ f.accessPoints f.graph types (f.analyse types cap).loans) :
    (f.analyse types cap).loans.issued p =
      done.filterMap Access.loan? ++ new :: rest.filterMap Access.loan? := by
  rw [← loans_of_accessPoints hf h, List.filterMap_append]
  rfl

/-- A new loan is reported where it is made. -/
theorem point_of_borrowed (hf : f.WellFormed)
    (h : .borrowed p old new ∈ (f.analyse types cap).conflicts) :
    new ∈ f.issueLoans types (f.tracked types) f.graph ∧ new.issuedAt = p := by
  obtain ⟨as, has, done, q, rest, rfl, _⟩ := clash_of_borrowed h
  have hnew : new ∈ (f.analyse types cap).loans.issued p := by
    rw [issued_split hf has]
    exact List.mem_append_right _ List.mem_cons_self
  exact (mem_issued hf).mp hnew

/-- A loan in use has the kind of the loan that it goes back to. -/
theorem kind_of_active (hf : f.WellFormed) (hold : old ∈ (f.analyse types cap).loans.activeBefore p)
    (ha : a ∈ (f.analyse types cap).loans.issued p) (h : old.origin = a.origin) : old.kind = a.kind := by
  obtain ⟨⟨_, _, hget⟩, _⟩ := LoanFacts.mem_heldIn.mp hold
  have ha := ((mem_issued hf).mp ha).1
  exact (place_of_origin hf (List.mem_of_getElem? hget) ha
    ((issued_origin ha).symm.trans h.symm)).2

/-- What is in the way of a loan where it is made, in use before the statement or made earlier in it,
    is reported. -/
theorem pairReported_of_bars (hf : f.WellFormed) (hnew : new ∈ (f.analyse types cap).loans.issued p)
    (hold : old ∈ (f.analyse types cap).loans.activeBefore p ∨
      (old ∈ (f.analyse types cap).loans.issued p ∧ old.id < new.id)) (hbars : old.Bars new) :
    PairReported (f.analyse types cap).conflicts (pairKey old new) := by
  obtain ⟨hl, rfl⟩ := (mem_issued hf).mp hnew
  obtain ⟨s, hs, hb, _⟩ := Function.exists_statement_of_issued hl
  have hrow : (_, f.accesses types _ s) ∈ f.accessPoints f.graph types (f.analyse types cap).loans :=
    Function.mem_accessPoints hb hs
  obtain ⟨before, after, hsplit⟩ := List.append_of_mem hnew
  obtain ⟨first, q, rest, has, hbefore⟩ :=
    Function.exists_borrow_of_loan ((loans_of_accessPoints hf hrow).trans hsplit)
  refine Clash.reported ⟨first, q, rest, has, ?_, hbars⟩ hrow
  rw [List.nil_append, hbefore]
  rcases hold with hold | ⟨hold, hlt⟩
  · exact List.mem_append_left _ hold
  · exact List.mem_append_right _
      (Function.mem_before_of_sorted (hsplit ▸ issued_sorted hf) (hsplit ▸ hold) hlt)

/-! ## 3. Two loans of one statement -/

section Pair

variable (hf : f.WellFormed) (hab : [a, b] <+ (f.analyse types cap).loans.issued p)

include hab

theorem left_issued : a ∈ (f.analyse types cap).loans.issued p := hab.subset List.mem_cons_self

theorem right_issued : b ∈ (f.analyse types cap).loans.issued p :=
  hab.subset (List.mem_cons_of_mem _ List.mem_cons_self)

include hf

theorem lt_of_sublist : a.id < b.id := by
  have h := (issued_sorted hf).sublist hab
  exact (List.pairwise_cons.mp h).1 b List.mem_cons_self

theorem origin_ne : a.origin ≠ b.origin := by
  rw [issued_origin ((mem_issued hf).mp (left_issued hab)).1,
    issued_origin ((mem_issued hf).mp (right_issued hab)).1]
  exact (lt_of_sublist hf hab).ne

/-- A pair of loans that one statement makes is reported there, if at all. -/
theorem reported_here (h : PairReported (f.analyse types cap).conflicts (pairKey a b)) :
    ∃ old new, .borrowed p old new ∈ (f.analyse types cap).conflicts ∧ pairKey old new = pairKey a b := by
  obtain ⟨pt, old, new, hmem, hk⟩ := h
  obtain ⟨hnew, hat⟩ := point_of_borrowed hf hmem
  have hp : pt = p := by
    rcases origins_of_pairKey hk with ⟨_, ho⟩ | ⟨_, ho⟩
    · cases eq_of_issued hf (right_issued hab) hnew ho
      exact hat.symm.trans ((mem_issued hf).mp (right_issued hab)).2
    · cases eq_of_issued hf (left_issued hab) hnew ho
      exact hat.symm.trans ((mem_issued hf).mp (left_issued hab)).2
  exact ⟨old, new, hp ▸ hmem, hk⟩

/-- The conflict of the pair is that of the second with the first, or of one of them with a loan in
    use that goes back to the other. -/
theorem cases_of_reported (hmem : .borrowed p old new ∈ (f.analyse types cap).conflicts)
    (hk : pairKey old new = pairKey a b) :
    (old = a ∧ new = b ∧ a.Bars b) ∨ old ∈ (f.analyse types cap).loans.activeBefore p ∧
      ((old.origin = a.origin ∧ old.isTouched b.place = true) ∨
        (old.origin = b.origin ∧ old.isTouched a.place = true)) := by
  obtain ⟨hnew, _⟩ := point_of_borrowed hf hmem
  obtain ⟨as, has, done, q, rest, rfl, hold, hbars⟩ := clash_of_borrowed hmem
  have hsplit := issued_split hf has
  have hwhich : (old.origin = a.origin ∧ new = b) ∨ (old.origin = b.origin ∧ new = a) := by
    rcases origins_of_pairKey hk with ⟨ho, hn⟩ | ⟨ho, hn⟩
    · exact Or.inl ⟨ho, eq_of_issued hf (right_issued hab) hnew hn⟩
    · exact Or.inr ⟨ho, eq_of_issued hf (left_issued hab) hnew hn⟩
  rcases List.mem_append.mp hold with hold | hold
  · refine Or.inr ⟨hold, ?_⟩
    rcases hwhich with ⟨ho, rfl⟩ | ⟨ho, rfl⟩
    · exact Or.inl ⟨ho, hbars.1⟩
    · exact Or.inr ⟨ho, hbars.1⟩
  · -- made by the same statement before the new one, so it is the first of the pair
    rw [List.nil_append] at hold
    have hsorted : (done.filterMap Access.loan? ++ new :: rest.filterMap Access.loan?).Pairwise
        fun a b => a.id < b.id := hsplit ▸ issued_sorted hf
    have hlt : old.id < new.id := (List.pairwise_append.mp hsorted).2.2 old hold new List.mem_cons_self
    have hhere : old ∈ (f.analyse types cap).loans.issued p := hsplit ▸ List.mem_append_left _ hold
    have hissued := ((mem_issued hf).mp hhere).1
    rcases hwhich with ⟨ho, rfl⟩ | ⟨ho, rfl⟩
    · cases eq_of_issued hf (left_issued hab) hissued ho
      exact Or.inl ⟨rfl, rfl, hbars⟩
    · cases eq_of_issued hf (right_issued hab) hissued ho
      exact absurd hlt (lt_of_sublist hf hab).asymm

/-- The pairs of loans of one statement that are reported. -/
theorem pair_reported_iff (hover : a.place.overlaps b.place = true)
    (hkind : a.kind = .unique ∨ b.kind = .unique) :
    (∃ old new, .borrowed p old new ∈ (f.analyse types cap).conflicts ∧ pairKey old new = pairKey a b) ↔
      a.isThroughOldValue b.place = false ∨ ∃ x ∈ (f.analyse types cap).loans.activeBefore p,
        (x.origin = a.origin ∧ x.isTouched b.place = true) ∨
          (x.origin = b.origin ∧ x.isTouched a.place = true) := by
  have ha := left_issued hab
  have hb := right_issued hab
  have hne := origin_ne hf hab
  constructor
  · intro h
    obtain ⟨old, new, hmem, hk⟩ := h
    rcases cases_of_reported hf hab hmem hk with ⟨rfl, rfl, hbars⟩ | ⟨hold, hfrom⟩
    · obtain ⟨_, hthrough⟩ := Bool.and_eq_true_iff.mp hbars.1
      exact Or.inl (Bool.not_eq_true' _ ▸ hthrough)
    · exact Or.inr ⟨old, hold, hfrom⟩
  · intro h
    refine reported_here hf hab ?_
    rcases h with hthrough | ⟨x, hx, ⟨ho, htouched⟩ | ⟨ho, htouched⟩⟩
    · have htouched : a.isTouched b.place = true := by
        rw [Loan.isTouched, hover, hthrough]
        rfl
      exact pairReported_of_bars hf hb (Or.inr ⟨ha, lt_of_sublist hf hab⟩)
        ⟨htouched, Loan.excludes_of_unique hne hkind⟩
    · rw [← kind_of_active hf hx ha ho] at hkind
      rw [← pairKey_congr ho]
      exact pairReported_of_bars hf hb (Or.inl hx)
        ⟨htouched, Loan.excludes_of_unique (ho ▸ hne) hkind⟩
    · rw [← kind_of_active hf hx hb ho] at hkind
      rw [pairKey_comm, ← pairKey_congr ho]
      exact pairReported_of_bars hf ha (Or.inl hx)
        ⟨htouched, Loan.excludes_of_unique (ho ▸ hne.symm) hkind.symm⟩

end Pair

/-! ## 4. The write of a statement -/

/-- A loan with a holder that is live behind the statement, and only partly written by it, counts for the
    write if it arrives at the statement. -/
theorem mem_activeAfter_iff (hf : f.WellFormed) {s : Statement} (hs : f.statementAt? p = some s)
    {q : Place} (hq : s.dest? = some q) (hl : l ∈ (f.analyse types cap).loans.loans)
    (hholder : l.holder = some q.name) (hpart : q.isWhole = false)
    (hlive : q.name ∈ (f.analyse types cap).live.liveAfter p) :
    l ∈ (f.analyse types cap).loans.activeAfter p ↔ l.id ∈ (f.analyse types cap).loans.reaching p := by
  have hkept : q.name ∉ (f.analyse types cap).loans.killed p := by
    intro hkill
    obtain ⟨s', hs', hk⟩ := Function.mem_killed hkill
    cases hs.symm.trans hs'
    obtain ⟨q', hq', hwhole, _⟩ := Statement.mem_killed.mp hk
    cases hq.symm.trans hq'
    cases hpart.symm.trans hwhole
  have hheld : l.isHeldIn ((f.analyse types cap).live.liveAfter p \
      (f.analyse types cap).loans.killed p) = true := by
    rw [Loan.isHeldIn, hholder, Option.any_some]
    exact ExtTreeSet.mem_diff_iff.mpr ⟨hlive, hkept⟩
  constructor
  · intro h
    obtain ⟨⟨i, hi, hget⟩, _⟩ := LoanFacts.mem_heldIn.mp h
    rw [(analyse_table hf types cap).numbered i l hget]
    exact hi
  · intro h
    exact LoanFacts.mem_heldIn.mpr ⟨⟨l.id, h, (analyse_table hf types cap).get_of_mem hl⟩, hheld⟩

/-- A write to a place of the holder is over the loan unless the loan lies behind the holder's old value. -/
theorem Loan.isOverwritten_iff {q : Place} (hholder : l.holder = some q.name)
    (hover : l.place.overlaps q = true) (hbehind : q.isBehind l.place = false) :
    l.isOverwritten q = true ↔ l.place.hasDeref = false := by
  have hroot : l.place.root = q.root := beq_iff_eq.mp (Bool.and_eq_true_iff.mp hover).1
  have hname : l.place.name = q.name := congrArg Root.name hroot
  simp [isOverwritten, isTouched, isThroughOldValue, hover, hbehind, hholder, hname]

/-- The writes that are reported for a loan of the written root. -/
theorem write_reported_iff (hf : f.WellFormed) (hp : f.Reaches p) {s : Statement}
    (hs : f.statementAt? p = some s) {q : Place} (hq : s.dest? = some q)
    (hl : l ∈ (f.analyse types cap).loans.loans) (hholder : l.holder = some q.name)
    (hpart : q.isWhole = false) (hover : l.place.overlaps q = true)
    (hbehind : q.isBehind l.place = false) (hlive : q.name ∈ (f.analyse types cap).live.liveAfter p) :
    .written p q l ∈ (f.analyse types cap).conflicts ↔
      l.id ∈ (f.analyse types cap).loans.reaching p ∧ l.place.hasDeref = false := by
  have hwrite : .write q ∈ f.accessesAt types (f.analyse types cap).loans p := by
    rw [Function.accessesAt, hs]
    exact Function.write_mem_accesses hq _
  rw [written_mem_conflicts_iff hf hp, mem_activeAfter_iff hf hs hq hl hholder hpart hlive,
    Loan.isOverwritten_iff hholder hover hbehind, and_iff_right hwrite]

/-! ## 5. All loans of a statement -/

/-- **Which loans of a statement bind the rest of it.** A statement makes one loan for each borrow among
    its operands, in order. Of two that overlap, one of them exclusive, the pair is reported at the
    statement unless the first lies behind the old value of its holder, and the second is reached through
    that holder as well; then it is reported only if one of the two meets a loan in use that goes back to
    the other. The write to a part of the root that holds a loan of the statement is reported for the loan
    if the loan arrives at the statement, so was made there before, and lies behind no reference. -/
theorem statement_loans_reported {d : Draft} (hv : d.validate types = .ok f) (m : Nat)
    (hp : f.Reaches p) {s : Statement} (hs : f.statementAt? p = some s) :
    ((f.analyse types m).loans.issued p).map (fun l => (l.place, l.kind, l.holder)) =
        f.borrows types (f.tracked types) s ∧
      (∀ a b, [a, b] <+ (f.analyse types m).loans.issued p → a.place.overlaps b.place = true →
        (a.kind = .unique ∨ b.kind = .unique) →
        ((∃ old new, .borrowed p old new ∈ (f.analyse types m).conflicts ∧
            pairKey old new = pairKey a b) ↔
          a.isThroughOldValue b.place = false ∨ ∃ x ∈ (f.analyse types m).loans.activeBefore p,
            (x.origin = a.origin ∧ x.isTouched b.place = true) ∨
              (x.origin = b.origin ∧ x.isTouched a.place = true))) ∧
      ∀ q l, s.dest? = some q → l ∈ (f.analyse types m).loans.issued p → l.holder = some q.name →
        q.isWhole = false → l.place.overlaps q = true → q.isBehind l.place = false →
        q.name ∈ (f.analyse types m).live.liveAfter p →
        (.written p q l ∈ (f.analyse types m).conflicts ↔
          l.id ∈ (f.analyse types m).loans.reaching p ∧ l.place.hasDeref = false) := by
  have hf := Draft.wellFormed_of_validate hv
  obtain ⟨ps, hr⟩ := hp
  refine ⟨?_, fun a b hab hover hkind => pair_reported_iff hf hab hover hkind,
    fun q l hq hl hholder hpart hover hbehind hlive => ?_⟩
  · rw [LoanFacts.issued, (analyse_table hf types m).issuedAtPoint_eq]
    exact Function.issued_borrows (hr.mem_reachable hf) hs
  · have hl : l ∈ (f.analyse types m).loans.loans := List.mem_of_mem_filter hl
    exact write_reported_iff hf ⟨ps, hr⟩ hs hq hl hholder hpart hover hbehind hlive

/-- The types of the examples below. -/
def braidTypes : TypeTable where
  defs := [⟨"Bool", .scalar⟩, ⟨"Vec", .owned⟩, ⟨"&Vec", .ref false 2⟩, ⟨"&mut Vec", .ref true 2⟩,
    ⟨"Int", .scalar⟩, ⟨"S", .struct [("f", some 3), ("g", some 2)] false⟩]

/-- The field `f` of the root `s`. -/
def knotField : Place := ⟨⟨.param, "s"⟩, [.field "f"]⟩

/-- What the root `r` refers to. -/
def halveTarget : Place := ⟨⟨.param, "r"⟩, [.deref]⟩

/-- The statement of `braid`: it borrows all of `s` for a field of `s`, and the same storage twice. -/
def braidStep : Statement :=
  .assign knotField (.call "view" [.ref ⟨⟨.param, "s"⟩, []⟩ .shared, .ref halveTarget .unique,
    .ref halveTarget .unique])

/-- A loop over `braidStep`. -/
def braid : Function where
  name := "braid"
  params := [⟨⟨.param, "c"⟩, []⟩, ⟨⟨.param, "s"⟩, []⟩, ⟨⟨.param, "r"⟩, []⟩]
  result := ⟨⟨.result, "_ret"⟩, []⟩
  locals := [("c", ⟨⟨.param, "c"⟩, some 1⟩), ("s", ⟨⟨.param, "s"⟩, some 6⟩),
    ("r", ⟨⟨.param, "r"⟩, some 4⟩), ("_ret", ⟨⟨.result, "_ret"⟩, some 5⟩)]
  blocks := [
    ⟨[], .goto 1⟩,
    ⟨[braidStep], .branch (.copy ⟨⟨.param, "c"⟩, []⟩) 1 2⟩,
    ⟨[.eval (.call "use" [.copy ⟨⟨.param, "s"⟩, []⟩])], .ret⟩]

/-- The loans of `braidStep`. -/
def braidLoans : List Loan :=
  [⟨0, ⟨⟨.param, "s"⟩, []⟩, .shared, ⟨1, 0⟩, some "s", 0⟩,
    ⟨1, halveTarget, .unique, ⟨1, 0⟩, some "s", 1⟩, ⟨2, halveTarget, .unique, ⟨1, 0⟩, some "s", 2⟩]

/-- In the loop of `braid` the second and the third loan are reported as a pair, and the write is
    reported for the first, which an earlier turn made as well. -/
theorem statement_loans_reported_braid :
    braid.draft.validate braidTypes = .ok braid ∧ braid.Reaches ⟨1, 0⟩ ∧
      braid.statementAt? ⟨1, 0⟩ = some braidStep ∧
      (braid.analyse braidTypes 20).loans.issued ⟨1, 0⟩ = braidLoans ∧
      (∃ old new, .borrowed ⟨1, 0⟩ old new ∈ (braid.analyse braidTypes 20).conflicts ∧
        pairKey old new = (1, 2)) ∧
      .written ⟨1, 0⟩ knotField ⟨0, ⟨⟨.param, "s"⟩, []⟩, .shared, ⟨1, 0⟩, some "s", 0⟩ ∈
        (braid.analyse braidTypes 20).conflicts := by
  have hp : braid.Reaches ⟨1, 0⟩ := ⟨[⟨0, 0⟩], .step .start (.jump (b := 0) (by decide))⟩
  have hissued : (braid.analyse braidTypes 20).loans.issued ⟨1, 0⟩ = braidLoans := by decide +kernel
  have hv : braid.draft.validate braidTypes = .ok braid := rfl
  obtain ⟨_, hpair, hwrite⟩ := statement_loans_reported hv 20 hp rfl
  rw [hissued] at hpair hwrite
  refine ⟨hv, hp, rfl, hissued, ?_, ?_⟩
  · exact (hpair _ _ (List.sublist_cons_self _ _) (by decide) (Or.inl rfl)).mpr (Or.inl (by decide))
  · exact (hwrite _ _ rfl List.mem_cons_self rfl rfl (by decide) (by decide) (by decide +kernel)).mpr
      ⟨by decide +kernel, rfl⟩

/-- `r` is replaced by what is made of two exclusive borrows of its target. -/
def halve : Function where
  name := "halve"
  params := [⟨⟨.param, "r"⟩, []⟩]
  result := ⟨⟨.result, "_ret"⟩, []⟩
  locals := [("r", ⟨⟨.param, "r"⟩, some 4⟩), ("_ret", ⟨⟨.result, "_ret"⟩, some 5⟩)]
  blocks := [
    ⟨[.assign ⟨⟨.param, "r"⟩, []⟩ (.call "pair" [.ref halveTarget .unique, .ref halveTarget .unique]),
      .eval (.call "use" [.copy ⟨⟨.param, "r"⟩, []⟩])], .ret⟩]

/-- A field of `s` is written with a borrow of all of `s`. -/
def knot : Function where
  name := "knot"
  params := [⟨⟨.param, "s"⟩, []⟩]
  result := ⟨⟨.result, "_ret"⟩, []⟩
  locals := [("s", ⟨⟨.param, "s"⟩, some 6⟩), ("_ret", ⟨⟨.result, "_ret"⟩, some 5⟩)]
  blocks := [
    ⟨[.assign knotField (.call "view" [.ref ⟨⟨.param, "s"⟩, []⟩ .shared]),
      .eval (.call "use" [.copy ⟨⟨.param, "s"⟩, []⟩])], .ret⟩]

/-- **Two exclusive loans of one place in one statement, and a write into a place that is lent by the same
    statement, pass with a good verdict.** -/
theorem statement_loans_missed :
    (halve.draft.validate braidTypes = .ok halve ∧ (halve.analyse braidTypes 20).stalled = [] ∧
      (halve.analyse braidTypes 20).loans.issued ⟨0, 0⟩ =
        [⟨0, halveTarget, .unique, ⟨0, 0⟩, some "r", 0⟩, ⟨1, halveTarget, .unique, ⟨0, 0⟩, some "r", 1⟩] ∧
      halveTarget.overlaps halveTarget = true ∧ (halve.check braidTypes conflictsOnly).ok = true) ∧
    knot.draft.validate braidTypes = .ok knot ∧ (knot.analyse braidTypes 20).stalled = [] ∧
      (knot.analyse braidTypes 20).loans.issued ⟨0, 0⟩ =
        [⟨0, ⟨⟨.param, "s"⟩, []⟩, .shared, ⟨0, 0⟩, some "s", 0⟩] ∧
      (Place.mk ⟨.param, "s"⟩ []).overlaps knotField = true ∧
      knotField.isBehind ⟨⟨.param, "s"⟩, []⟩ = false ∧
      "s" ∈ (knot.analyse braidTypes 20).live.liveAfter ⟨0, 0⟩ ∧
      (knot.check braidTypes conflictsOnly).ok = true := by
  refine ⟨⟨rfl, ?_, ?_, ?_, ?_⟩, rfl, ?_, ?_, ?_, ?_, ?_, ?_⟩ <;> decide +kernel

end Ownership
