import Ownership.Proofs.Conflict.Exclusive
import Ownership.Proofs.Loans.InUse

/-!
# Statements keep clear of references in use

If a function has a good verdict, then along every route no statement touches storage that a reference
in use leads to, unless the reference allows it: what is read is not on exclusive loan, what is moved
out of is not on loan at all, and what is written is not on loan to a root that is used later.

* `Function.OnlyReads`, `Function.MovesOut`: what a statement does with the places it names;
* `Function.KeepsClear`: what it has to leave alone for the sake of one token;
* `copies_mem_accesses`, `takes_mem_accesses`, `write_mem_accesses`: the detector looks at all of it;
* `statements_keep_clear`: the statement for every token.
-/

namespace Ownership

/-! ## 1. What a statement does with a place -/

/-- The statement reads the place and leaves it as it is. -/
def Statement.Copies (s : Statement) (q : Place) : Prop :=
  ∃ v, s.value? = some v ∧ (v.cloned? = some q ∨ .copy q ∈ v.operands)

/-- The statement asks for the value of the place. -/
def Statement.Takes (s : Statement) (q : Place) : Prop :=
  (∃ d, s = .move d q) ∨ ∃ v, s.value? = some v ∧ .move q ∈ v.operands

/-- The loan as it is seen from the root that holds it. -/
def Loan.heldBy (a : Loan) (r : String) : Loan := { a with holder := some r }

namespace Function

variable (f : Function) (types : TypeTable)

/-- The place is read and nothing more: it is copied or cloned, or its value is asked for and cannot be
    moved, because it is copyable or lies behind a reference. -/
def OnlyReads (s : Statement) (q : Place) : Prop :=
  s.Copies q ∨ (s.Takes q ∧ f.isMovable types q = false)

/-- The value of the place is moved away. -/
def MovesOut (s : Statement) (q : Place) : Prop := s.Takes q ∧ f.isMovable types q = true

/-- The statement at a point keeps clear of what a token of the loan `a` leads to. A token that leads
    through its own holder does not stand in the way of what hangs off that holder. -/
structure KeepsClear (live : LiveFacts) (p : Point) (s : Statement) (t : Token) (a : Loan) : Prop where
  /-- What is read is not on exclusive loan to a live root. -/
  reads : t.holder ∈ live.liveBefore p → a.kind = .unique → ∀ q, f.OnlyReads types s q →
    a.place.overlaps q = true → (a.heldBy t.holder).isThroughOldValue q = true
  /-- What is moved away is not on loan to a live root. -/
  moves : t.holder ∈ live.liveBefore p → ∀ q, f.MovesOut types s q →
    a.place.overlaps q = true → (a.heldBy t.holder).isThroughOldValue q = true
  /-- What is written is not on loan to a root that is live behind the statement and not replaced by
      it, except for what lies behind a reference in the written place. -/
  writes : t.holder ∈ live.liveAfter p → ¬ s.Ends t.holder → ∀ q, s.dest? = some q →
    a.place.overlaps q = true →
    (a.heldBy t.holder).isThroughOldValue q = true ∨ q.isBehind a.place = true

end Function

/-! ## 2. The accesses of a statement -/

namespace Function

variable {f : Function} {types : TypeTable} {s : Statement} {q : Place}

/-- The access that an operand is, unless it borrows. -/
def operandAccess? (f : Function) (types : TypeTable) : Operand → Option Access
  | .copy p => some (.read p)
  | .move p => some (f.moveAccess types p)
  | .ref .. | .literal _ => none

theorem mem_operandAccesses {ops : List Operand} {o : Operand} {a : Access} (ho : o ∈ ops)
    (ha : f.operandAccess? types o = some a) : ∀ ls, a ∈ f.operandAccesses types ops ls := by
  induction ops with
  | nil => cases ho
  | cons c ops ih =>
    intro ls
    rcases List.mem_cons.mp ho with rfl | hrest
    · cases o with
      | copy p =>
        cases ha
        exact List.mem_cons_self
      | move p =>
        cases ha
        exact List.mem_cons_self
      | ref p k => cases ha
      | literal v => cases ha
    · cases c with
      | copy p => exact List.mem_cons_of_mem _ (ih hrest ls)
      | move p => exact List.mem_cons_of_mem _ (ih hrest ls)
      | literal v => exact ih hrest ls
      | ref p k =>
        cases ls with
        | nil => exact ih hrest []
        | cons l ls => exact List.mem_cons_of_mem _ (ih hrest ls)

/-- The accesses of the value that a statement evaluates are accesses of the statement. -/
theorem valueAccesses_subset {v : Value} (hv : s.value? = some v) (issued : List Loan) :
    f.valueAccesses types v issued ⊆ f.accesses types issued s := by
  cases s with
  | assign d w =>
    cases hv
    exact List.subset_append_left _ _
  | eval w =>
    cases hv
    exact List.Subset.refl _
  | borrow d p k => cases hv
  | move d p => cases hv
  | drop p => cases hv

theorem copies_mem_accesses (h : s.Copies q) (issued : List Loan) :
    .read q ∈ f.accesses types issued s := by
  obtain ⟨v, hv, hq⟩ := h
  refine valueAccesses_subset hv issued ?_
  rcases hq with hq | hq
  · exact List.mem_append_left _ (List.mem_map_of_mem (Option.mem_toList.mpr hq))
  · exact List.mem_append_right _ (mem_operandAccesses hq rfl issued)

theorem takes_mem_accesses (h : s.Takes q) (issued : List Loan) :
    f.moveAccess types q ∈ f.accesses types issued s := by
  rcases h with ⟨d, rfl⟩ | ⟨v, hv, hq⟩
  · exact List.mem_cons_self
  · exact valueAccesses_subset hv issued (List.mem_append_right _ (mem_operandAccesses hq rfl issued))

theorem read_mem_accesses (h : f.OnlyReads types s q) (issued : List Loan) :
    .read q ∈ f.accesses types issued s := by
  rcases h with h | ⟨h, hm⟩
  · exact copies_mem_accesses h issued
  · have hmem : f.moveAccess types q ∈ f.accesses types issued s := takes_mem_accesses h issued
    rw [moveAccess, hm] at hmem
    exact hmem

theorem move_mem_accesses (h : f.MovesOut types s q) (issued : List Loan) :
    .move q ∈ f.accesses types issued s := by
  have hmem : f.moveAccess types q ∈ f.accesses types issued s := takes_mem_accesses h.1 issued
  rw [moveAccess, h.2] at hmem
  exact hmem

theorem write_mem_accesses (h : s.dest? = some q) (issued : List Loan) :
    .write q ∈ f.accesses types issued s := by
  cases s with
  | assign d v =>
    cases h
    exact List.mem_append_right _ List.mem_cons_self
  | borrow d p k =>
    cases h
    exact List.mem_append_right _ List.mem_cons_self
  | move d p =>
    cases h
    exact List.mem_cons_of_mem _ List.mem_cons_self
  | drop p => cases h
  | eval v => cases h

end Function

/-! ## 3. Silence about an access -/

section Silent

variable {f : Function} {types : TypeTable} {s : Settings} (hok : (f.check types s).ok = true)
  {p : Point} {st : Statement} (hb : p.block ∈ f.graph.reachable) (hs : f.statementAt? p = some st)
  {q : Place}

include hok hb hs

/-- With a good verdict no access of a statement raises a conflict, whatever loans were made before it
    in the statement. -/
theorem Function.access_silent {a : Access}
    (ha : a ∈ f.accesses types ((f.analyse types s.maxVisits).loans.issued p) st) :
    ∃ here, (accessConflicts (f.analyse types s.maxVisits).loans p here [] a).1 = [] := by
  obtain ⟨done, rest, hsplit⟩ := List.append_of_mem ha
  have hrow : (p, f.accesses types ((f.analyse types s.maxVisits).loans.issued p) st) ∈
      f.accessPoints f.graph types (f.analyse types s.maxVisits).loans :=
    Function.mem_accessPoints hb hs
  have hnone := pointsConflicts_nil (Function.accesses_eq_nil hok) _ _ hrow
  exact ⟨_, (accessesConflicts_nil hnone).2 done a rest hsplit⟩

theorem Function.read_silent (hq : f.OnlyReads types st q) {x : Loan}
    (hx : x ∈ (f.analyse types s.maxVisits).loans.activeBefore p) (hkind : x.kind = .unique) :
    x.isTouched q = false := by
  obtain ⟨here, hnil⟩ := Function.access_silent hok hb hs (Function.read_mem_accesses hq _)
  have hx := List.filter_eq_nil_iff.mp (List.map_eq_nil_iff.mp hnil) x (List.mem_append_left _ hx)
  simpa [hkind] using hx

theorem Function.move_silent (hq : f.MovesOut types st q) {x : Loan}
    (hx : x ∈ (f.analyse types s.maxVisits).loans.activeBefore p) : x.isTouched q = false := by
  obtain ⟨here, hnil⟩ := Function.access_silent hok hb hs (Function.move_mem_accesses hq _)
  have hx := List.filter_eq_nil_iff.mp (List.map_eq_nil_iff.mp hnil) x (List.mem_append_left _ hx)
  simpa using hx

theorem Function.write_silent (hq : st.dest? = some q) {x : Loan}
    (hx : x ∈ (f.analyse types s.maxVisits).loans.activeAfter p) : x.isOverwritten q = false := by
  obtain ⟨here, hnil⟩ := Function.access_silent hok hb hs (Function.write_mem_accesses hq _)
  have hx := List.filter_eq_nil_iff.mp (List.map_eq_nil_iff.mp hnil) x hx
  simpa using hx

end Silent

/-! ## 4. Tokens -/

/-- The loan `x` stands for a token of the loan `a` that the root `r` holds. -/
structure Loan.StandsFor (x a : Loan) (r : String) : Prop where
  place : x.place = a.place
  kind : x.kind = a.kind
  holder : x.holder = some r

namespace Loan.StandsFor

variable {x a : Loan} {r : String} {q : Place}

theorem isTouched_eq (h : x.StandsFor a r) : x.isTouched q = (a.heldBy r).isTouched q := by
  unfold Loan.isTouched Loan.isThroughOldValue
  rw [h.place, h.holder]
  rfl

/-- A loan that an access does not touch, although the places overlap, leads through its holder. -/
theorem through_of_untouched (h : x.StandsFor a r) (hno : x.isTouched q = false)
    (hover : a.place.overlaps q = true) : (a.heldBy r).isThroughOldValue q = true := by
  rw [h.isTouched_eq] at hno
  rcases Bool.and_eq_false_iff.mp hno with hapart | hthrough
  · cases hover.symm.trans hapart
  · rw [Bool.not_eq_false'] at hthrough
    exact hthrough

end Loan.StandsFor

section Tokens

variable {f : Function} {types : TypeTable} {cap : Nat} {t : Token} {a x : Loan}

/-- A loan of the table that holds what a token is stands for the token. -/
theorem Loan.standsFor_of_hold (hf : f.WellFormed)
    (ha : a ∈ f.issueLoans types (f.tracked types) f.graph) (hta : a.id = t.origin)
    (hx : x ∈ (f.analyse types cap).loans.loans) (hhold : x.hold? = some t.toHold) :
    x.StandsFor a t.holder := by
  obtain ⟨hxo, _, hxh⟩ := Loan.hold?_eq_some.mp hhold
  obtain ⟨hplace, hkind⟩ := place_of_origin hf hx ha (hta.trans hxo.symm)
  exact ⟨hplace, hkind, hxh⟩

/-- The loan that a token goes back to. -/
theorem Function.Holds.exists_loan (hf : f.WellFormed) {ps : List Point} (h : f.Holds types ps t) :
    ∃ a ∈ f.issueLoans types (f.tracked types) f.graph, a.id = t.origin ∧
      (f.analyse types cap).loans.loans[t.origin]? = some a := by
  have htable := analyse_table hf types cap
  obtain ⟨a, ha, hat, _⟩ := h.made_at
  have hta : a.id = t.origin := (issued_origin ha).symm.trans hat
  exact ⟨a, ha, hta, hta ▸ htable.get_of_mem (htable.grown.subset ha)⟩

end Tokens

/-! ## 5. Every token -/

/-- **With a good verdict, statements keep clear of references in use.** Along every route, the
    statement that comes next keeps clear of what each token leads to. -/
theorem statements_keep_clear {d : Draft} {f : Function} {types : TypeTable}
    (hv : d.validate types = .ok f) {s : Settings} (hok : (f.check types s).ok = true) {p : Point}
    {ps : List Point} (hr : f.Route p ps) {st : Statement} (hs : f.statementAt? p = some st)
    {t : Token} (ht : f.Holds types ps t) :
    ∃ a, (f.analyse types s.maxVisits).loans.loans[t.origin]? = some a ∧
      f.KeepsClear types (f.analyse types s.maxVisits).live p st t a := by
  have hf := Draft.wellFormed_of_validate hv
  obtain ⟨_, hlive, hloans⟩ := (Function.ok_iff.mp hok).2
  have hb := hr.mem_reachable hf
  obtain ⟨a, ha, hta, hget⟩ := ht.exists_loan hf
  -- before the statement the token is a loan in use, if its holder is live
  have hbefore : t.holder ∈ (f.analyse types s.maxVisits).live.liveBefore p →
      ∃ x ∈ (f.analyse types s.maxVisits).loans.activeBefore p, x.StandsFor a t.holder := by
    intro hin
    obtain ⟨x, hx, hhold⟩ := exists_activeBefore_of_holds hf hlive hloans hr ht hin
    obtain ⟨⟨_, _, hi⟩, _⟩ := LoanFacts.mem_heldIn.mp hx
    exact ⟨x, hx, Loan.standsFor_of_hold hf ha hta (List.mem_of_getElem? hi) hhold⟩
  refine ⟨a, hget, fun hin hkind q hq hover => ?_, fun hin q hq hover => ?_,
    fun hin hends q hq hover => ?_⟩
  · obtain ⟨x, hx, hstands⟩ := hbefore hin
    have hno := Function.read_silent hok hb hs hq hx (hstands.kind.trans hkind)
    exact hstands.through_of_untouched hno hover
  · obtain ⟨x, hx, hstands⟩ := hbefore hin
    have hno := Function.move_silent hok hb hs hq hx
    exact hstands.through_of_untouched hno hover
  · have hkept : ∀ st', f.statementAt? p = some st' → ¬ st'.Ends t.holder := by
      intro st' hs'
      cases hs.symm.trans hs'
      exact hends
    obtain ⟨x, hx, hhold⟩ := exists_activeAfter_of_holds hf hlive hloans hr ht hkept hin
    obtain ⟨⟨_, _, hi⟩, _⟩ := LoanFacts.mem_heldIn.mp hx
    have hstands := Loan.standsFor_of_hold hf ha hta (List.mem_of_getElem? hi) hhold
    rcases Bool.and_eq_false_iff.mp (Function.write_silent hok hb hs hq hx) with hno | hbehind
    · exact Or.inl (hstands.through_of_untouched hno hover)
    · rw [Bool.not_eq_false', hstands.place] at hbehind
      exact Or.inr hbehind

/-- The types of the example below. -/
def refillTypes : TypeTable where
  defs := [⟨"Bool", .scalar⟩, ⟨"Vec", .owned⟩, ⟨"&mut Vec", .ref true 2⟩, ⟨"Int", .scalar⟩,
    ⟨"Pack", .struct [("head", some 2), ("size", some 4), ("tail", some 2), ("total", some 4)] false⟩]

/-- A field of the root `pack` of `refill`. -/
def packField (name : String) : Place := ⟨⟨.localVar, "pack"⟩, [.field name]⟩

/-- The statement of `refill` that reads, moves and writes fields of `pack`. -/
def refillStep : Statement :=
  .assign (packField "total") (.call "mix" [.copy (packField "size"), .move (packField "tail")])

/-- While `r` leads to one field of `pack`, a loop fills, reads, moves and writes the others. -/
def refill : Function where
  name := "refill"
  params := [⟨⟨.param, "c"⟩, []⟩]
  result := ⟨⟨.result, "_ret"⟩, []⟩
  locals := [("c", ⟨⟨.param, "c"⟩, some 1⟩), ("pack", ⟨⟨.localVar, "pack"⟩, some 5⟩),
    ("r", ⟨⟨.localVar, "r"⟩, some 3⟩), ("_ret", ⟨⟨.result, "_ret"⟩, some 4⟩)]
  blocks := [
    ⟨[.assign ⟨⟨.localVar, "pack"⟩, []⟩ (.call "make" []),
      .borrow ⟨⟨.localVar, "r"⟩, []⟩ (packField "head") .unique], .goto 1⟩,
    ⟨[.assign (packField "tail") (.alloc "Vec"), refillStep,
      .eval (.call "use" [.copy ⟨⟨.localVar, "r"⟩, []⟩])], .branch (.copy ⟨⟨.param, "c"⟩, []⟩) 1 2⟩,
    ⟨[], .ret⟩]

/-- The loan of the borrow of `refill`. -/
def refillLoan : Loan := ⟨0, packField "head", .unique, ⟨0, 1⟩, some "r", 0⟩

/-- The points on the way to `refillStep` in the first turn, the latest first. -/
def refillWay : List Point := [⟨1, 0⟩, ⟨0, 2⟩, ⟨0, 1⟩, ⟨0, 0⟩]

theorem refillWay_route : refill.Route ⟨1, 1⟩ refillWay := by
  have hentry : refill.Route ⟨1, 0⟩ (refillWay.drop 1) :=
    .step (.step (.step .start (.next (by decide))) (.next (by decide))) (.jump (b := 0) (by decide))
  exact .step hentry (.next (by decide))

theorem refillWay_holds : refill.Holds refillTypes refillWay ⟨⟨0, ⟨0, 1⟩, "r"⟩, 1⟩ := by
  have hmade : refill.Holds refillTypes (refillWay.drop 2) ⟨⟨0, ⟨0, 1⟩, "r"⟩, 1⟩ :=
    .made (l := refillLoan) (by decide +kernel) rfl rfl
  have hjump : refill.Holds refillTypes (refillWay.drop 1) ⟨⟨0, ⟨0, 1⟩, "r"⟩, 1⟩ :=
    .kept hmade fun s hs => nomatch hs
  exact hjump.over rfl (by decide)

/-- While `r` is in use, the field that is read, the one that is moved away and the one that is written
    are not the one that `r` leads to. -/
theorem statements_keep_clear_refill :
    refill.draft.validate refillTypes = .ok refill ∧ (refill.check refillTypes {}).ok = true ∧
      refill.Route ⟨1, 1⟩ refillWay ∧ refill.statementAt? ⟨1, 1⟩ = some refillStep ∧
      refill.Holds refillTypes refillWay ⟨⟨0, ⟨0, 1⟩, "r"⟩, 1⟩ ∧
      refill.OnlyReads refillTypes refillStep (packField "size") ∧
      refill.MovesOut refillTypes refillStep (packField "tail") ∧
      refillStep.dest? = some (packField "total") ∧
      (packField "head").overlaps (packField "size") = false ∧
      (packField "head").overlaps (packField "tail") = false ∧
      (packField "head").overlaps (packField "total") = false := by
  have hok : (refill.check refillTypes {}).ok = true := by decide +kernel
  have hreads : refill.OnlyReads refillTypes refillStep (packField "size") :=
    Or.inl ⟨_, rfl, Or.inr List.mem_cons_self⟩
  have hmoves : refill.MovesOut refillTypes refillStep (packField "tail") :=
    ⟨Or.inr ⟨_, rfl, List.mem_cons_of_mem _ List.mem_cons_self⟩, by decide +kernel⟩
  have hbefore : "r" ∈ (refill.analyse refillTypes 10000).live.liveBefore ⟨1, 1⟩ := by decide +kernel
  have hafter : "r" ∈ (refill.analyse refillTypes 10000).live.liveAfter ⟨1, 1⟩ := by decide +kernel
  have hloan : (refill.analyse refillTypes 10000).loans.loans[0]? = some refillLoan := by decide +kernel
  have hends : ¬ refillStep.Ends "r" := by decide
  have hstep : refill.statementAt? ⟨1, 1⟩ = some refillStep := rfl
  obtain ⟨a, ha, hclear⟩ := statements_keep_clear (d := refill.draft) (f := refill) rfl hok
    refillWay_route hstep refillWay_holds
  cases ha.symm.trans hloan
  refine ⟨rfl, hok, refillWay_route, hstep, refillWay_holds, hreads, hmoves, rfl, ?_, ?_, ?_⟩
  · exact Bool.eq_false_iff.mpr fun h => nomatch hclear.reads hbefore rfl _ hreads h
  · exact Bool.eq_false_iff.mpr fun h => nomatch hclear.moves hbefore _ hmoves h
  · refine Bool.eq_false_iff.mpr fun h => ?_
    rcases hclear.writes hafter hends _ rfl h with hthrough | hbehind
    · cases hthrough
    · cases hbehind

end Ownership
