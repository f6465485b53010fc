import Ownership.Proofs.Conflict.Exclusive
import Ownership.Proofs.Liveness.Present

/-!
# A borrow that is made again

Loans of one origin are never set against each other. When a borrow is made again in a later turn of
a loop, references of the earlier turns may therefore be in use still, whatever the verdict says. What
the loans say about them is exact:

* `Function.Holds.exists_dest`: the root that holds a reference is written by some statement;
* `not_live_of_dropped`: with a good verdict, a root that holds a reference is not used after it is
  dropped;
* `earlier_held_iff`: a live root holds a reference of an earlier turn, on some route, exactly if a
  loan of that origin is in use through it;
* `relay_keeps_earlier`: a good verdict does not exclude that.
-/

namespace Ownership

variable {f : Function} {types : TypeTable}

/-! ## 1. Roots that hold references -/

/-- A root that holds a reference is written by some statement. -/
theorem Function.Holds.exists_dest {ps : List Point} {t : Token} (h : f.Holds types ps t) :
    ∃ b ∈ f.blocks, ∃ s ∈ b.statements, ∃ d, s.dest? = some d ∧ d.name = t.holder := by
  induction h with
  | made hl _ hx =>
    obtain ⟨s, hs, _, hborrow⟩ := Function.exists_statement_of_issued hl
    rw [(Loan.hold?_eq_some.mp hx).2.2] at hborrow
    obtain ⟨hb, hmem⟩ := Function.block_of_statementAt? hs
    exact ⟨_, hb, s, hmem, Function.exists_dest_of_borrows hborrow⟩
  | kept _ _ ih => exact ih
  | handed _ hs hflow _ =>
    obtain ⟨hb, hmem⟩ := Function.block_of_statementAt? hs
    exact ⟨_, hb, _, hmem, hflow.exists_dest⟩

/-- A root that is written and has the name of the return place is the return place. -/
theorem Function.Holds.writesResult (hf : f.WellFormed) {ps : List Point} {t : Token}
    (h : f.Holds types ps t) (hname : t.holder = f.result.name) : f.writesResult = true := by
  obtain ⟨b, hb, s, hs, d, hd, hdname⟩ := h.exists_dest
  obtain ⟨decl, hget, hroot⟩ := hf.dests b hb s hs d hd
  obtain ⟨decl', hget', hroot'⟩ := hf.result
  rw [hdname, hname, hget'] at hget
  cases hget
  unfold Function.writesResult
  refine List.any_eq_true.mpr ⟨b, hb, List.any_eq_true.mpr ⟨s, hs, ?_⟩⟩
  rw [hd, Option.any_some, beq_iff_eq]
  exact hroot.symm.trans hroot'

/-! ## 2. Dropped holders -/

theorem effectsAt_drop {p : Point} {q : Place} (hs : f.statementAt? p = some (.drop q))
    (hwhole : q.isWhole = true) : f.effectsAt types p = [.release q] := by
  have hpath : q.path = [] := List.isEmpty_iff.mp hwhole
  have hderef : q.hasDeref = false := by
    unfold Place.hasDeref
    rw [hpath]
    rfl
  unfold Function.effectsAt
  rw [hs]
  exact if_neg (by rw [hderef]; exact Bool.false_ne_true)

/-- **With a good verdict, a root that holds a reference is not used after it is dropped.** -/
theorem not_live_of_dropped (hf : f.WellFormed) {s : Settings} (hok : (f.check types s).ok = true)
    {p : Point} {ps : List Point} {t : Token} {q : Place} (hr : f.Route p ps)
    (h : f.Holds types ps t) (hs : f.statementAt? p = some (.drop q)) (hwhole : q.isWhole = true)
    (hname : q.name = t.holder) : t.holder ∉ (f.analyse types s.maxVisits).live.liveAfter p := by
  intro hafter
  obtain ⟨hb, hstmt⟩ := hr.mem_order hf
  obtain ⟨_, _, hlive, _⟩ := Function.ok_iff.mp hok
  obtain ⟨p', hstep, hbefore⟩ := (mem_liveAfter hf hlive hb hstmt).mp hafter
  have hr' := hr.step hstep
  obtain ⟨hb', hstmt'⟩ := hr'.mem_order hf
  refine stateOf_ne_moved_of_live hf hok hr' (liveAt_of_mem_liveBefore hf hb' hstmt' hbefore)
    (h.writesResult hf) ?_
  -- the drop leaves nothing of the root
  have hmoved : ∀ st : MoveState, st.afterMove q.path = .moved := fun st => if_pos hwhole
  rw [Function.statesAlong, effectsAt_drop hs hwhole, ← hname]
  exact (MoveMap.stateOf_insert_self _ _ _).trans (hmoved _)

/-! ## 3. Earlier turns -/

/-- The point at which a loan is made is reached. -/
theorem reaches_of_issued (hf : f.WellFormed) {l : Loan}
    (hl : l ∈ f.issueLoans types (f.tracked types) f.graph) : f.Reaches l.issuedAt := by
  obtain ⟨s, hs, hb, _⟩ := Function.exists_statement_of_issued hl
  have hlt : l.issuedAt.stmt < (f.block l.issuedAt.block).statements.length :=
    (List.getElem?_eq_some_iff.mp hs).1
  exact (Function.Reaches.of_mem_order hf (hf.graph_sound.mem_reachable.mp hb)).within hlt.le

/-- A token of a loan was made where the loan is, earlier on the route. -/
theorem Function.Holds.passed {l : Loan} (hl : l ∈ f.issueLoans types (f.tracked types) f.graph)
    {ps : List Point} {t : Token} (h : f.Holds types ps t) (ho : t.origin = l.id) : l.issuedAt ∈ ps := by
  obtain ⟨a, ha, hat, later, past, rfl, _⟩ := h.made_at
  have hid : a.id = l.id := (issued_origin ha).symm.trans (hat.trans ho)
  cases issued_unique ha hl hid
  exact List.mem_append_right _ List.mem_cons_self

/-- **References of earlier turns.** With a good verdict, when a borrow is made that was made before on
    the route, a live root holds a reference of an earlier turn, on some route, exactly if a loan
    that goes back to the borrow is in use there through that root. -/
theorem earlier_held_iff {d : Draft} (hv : d.validate types = .ok f) {s : Settings}
    (hok : (f.check types s).ok = true) {l : Loan}
    (hl : l ∈ f.issueLoans types (f.tracked types) f.graph) (r : String) :
    (∃ ps t, f.Route l.issuedAt ps ∧ l.issuedAt ∈ ps ∧ f.Holds types ps t ∧ t.origin = l.id ∧
        t.holder = r ∧ r ∈ (f.analyse types s.maxVisits).live.liveBefore l.issuedAt) ↔
      ∃ x ∈ (f.analyse types s.maxVisits).loans.activeBefore l.issuedAt,
        x.origin = l.id ∧ x.holder = some r := by
  have hf := Draft.wellFormed_of_validate hv
  obtain ⟨_, _, hlive, hloans⟩ := Function.ok_iff.mp hok
  constructor
  · intro ⟨ps, t, hr, _, h, ho, hholder, hrlive⟩
    obtain ⟨x, hx, hhold⟩ := exists_activeBefore_of_holds hf hlive hloans hr h (hholder ▸ hrlive)
    obtain ⟨hxo, _, hxh⟩ := Loan.hold?_eq_some.mp hhold
    exact ⟨x, hx, hxo.trans ho, hxh.trans (congrArg some hholder)⟩
  · intro ⟨x, hx, ho, hholder⟩
    obtain ⟨ps, t, hr, h, hhold⟩ := exists_holds_of_activeBefore hf hloans
      (fun _ _ _ _ hr h hs hwhole hname => not_live_of_dropped hf hok hr h hs hwhole hname)
      (reaches_of_issued hf hl) hx
    obtain ⟨hxo, _, hxh⟩ := Loan.hold?_eq_some.mp hhold
    have hto : t.origin = l.id := hxo.symm.trans ho
    have htr : t.holder = r := Option.some.inj (hxh.symm.trans hholder)
    have hrlive := (LoanFacts.exists_activeBefore.mp ⟨x, hx, hhold⟩).2
    exact ⟨ps, t, hr, h.passed hl hto, h, hto, htr, htr ▸ hrlive⟩

/-- The loan of the borrow at the head of the loop of `relay`. -/
def relayLoan : Loan := ⟨1, ⟨⟨.localVar, "x"⟩, []⟩, .unique, ⟨1, 0⟩, some "r", 1⟩

/-- In the loop of `relay` the reference of the turn before is held by `v` when the borrow is made
    again, and not by `r`, which is written there and not in use. -/
theorem earlier_held_iff_relay :
    relay.draft.validate relayTypes = .ok relay ∧ (relay.check relayTypes {}).ok = true ∧
      relayLoan ∈ relay.issueLoans relayTypes (relay.tracked relayTypes) relay.graph ∧
      (∃ ps t, relay.Route ⟨1, 0⟩ ps ∧ ⟨1, 0⟩ ∈ ps ∧ relay.Holds relayTypes ps t ∧ t.origin = 1 ∧
        t.holder = "v" ∧ "v" ∈ (relay.analyse relayTypes 10000).live.liveBefore ⟨1, 0⟩) ∧
      ¬ ∃ ps t, relay.Route ⟨1, 0⟩ ps ∧ ⟨1, 0⟩ ∈ ps ∧ relay.Holds relayTypes ps t ∧ t.origin = 1 ∧
        t.holder = "r" ∧ "r" ∈ (relay.analyse relayTypes 10000).live.liveBefore ⟨1, 0⟩ := by
  have hok : (relay.check relayTypes {}).ok = true := by decide +kernel
  have hl : relayLoan ∈ relay.issueLoans relayTypes (relay.tracked relayTypes) relay.graph := by
    decide +kernel
  have hactive : (relay.analyse relayTypes 10000).loans.activeBefore ⟨1, 0⟩ =
      [⟨0, ⟨⟨.localVar, "y"⟩, []⟩, .unique, ⟨0, 2⟩, some "v", 0⟩,
        ⟨2, ⟨⟨.localVar, "x"⟩, []⟩, .unique, ⟨1, 2⟩, some "v", 1⟩] := by decide +kernel
  have hiff := earlier_held_iff (d := relay.draft) (f := relay) rfl hok hl
  refine ⟨rfl, hok, hl, (hiff "v").mpr ?_, fun h => ?_⟩
  · refine ⟨_, hactive ▸ List.mem_cons_of_mem _ List.mem_cons_self, rfl, rfl⟩
  · obtain ⟨x, hx, ho, hholder⟩ := (hiff "r").mp h
    rw [show relayLoan.issuedAt = ⟨1, 0⟩ from rfl, hactive] at hx
    rcases List.mem_cons.mp hx with rfl | hx
    · cases ho
    · cases List.mem_singleton.mp hx
      exact absurd (Option.some.inj hholder) (by decide)

/-- The points that one turn of the loop of `relay` passes, the latest first. -/
def relayTurn : List Point :=
  [⟨1, 3⟩, ⟨1, 2⟩, ⟨1, 1⟩, ⟨1, 0⟩, ⟨0, 3⟩, ⟨0, 2⟩, ⟨0, 1⟩, ⟨0, 0⟩]

theorem relayTurn_route : relay.Route ⟨1, 0⟩ relayTurn := by
  have hentry : relay.Route ⟨1, 0⟩ [⟨0, 3⟩, ⟨0, 2⟩, ⟨0, 1⟩, ⟨0, 0⟩] :=
    .step (.step (.step (.step .start (.next (by decide))) (.next (by decide))) (.next (by decide)))
      (.jump (b := 0) (by decide))
  exact .step (.step (.step (.step hentry (.next (by decide))) (.next (by decide)))
    (.next (by decide))) (.jump (b := 1) (by decide))

/-- The reference that is made in the first turn is handed on to `v`. -/
theorem relayTurn_holds : relay.Holds relayTypes relayTurn ⟨⟨1, ⟨1, 2⟩, "v"⟩, 4⟩ := by
  have hmade : relay.Holds relayTypes (relayTurn.drop 3) ⟨⟨1, ⟨1, 0⟩, "r"⟩, 4⟩ :=
    .made (l := relayLoan) (by decide +kernel) rfl rfl
  have hkept : relay.Holds relayTypes (relayTurn.drop 2) ⟨⟨1, ⟨1, 0⟩, "r"⟩, 4⟩ := by
    refine .kept hmade fun s hs ⟨p, hp, _⟩ => ?_
    cases hs
    rcases hp with hp | hp
    · cases hp
    · cases hp
  have hflow : relay.Flows relayTypes (relay.tracked relayTypes)
      (.assign ⟨⟨.localVar, "v"⟩, []⟩ (.use (.copy ⟨⟨.localVar, "r"⟩, []⟩))) "r" :=
    ⟨by decide +kernel, ⟨⟨.localVar, "r"⟩, []⟩, Or.inr (Or.inl List.mem_cons_self),
      by decide +kernel, rfl⟩
  have hhanded : relay.Holds relayTypes (relayTurn.drop 1) ⟨⟨1, ⟨1, 2⟩, "v"⟩, 4⟩ :=
    .handed hkept rfl hflow
  -- the branch at the end of the block ends nothing
  exact .kept hhanded fun s hs => nomatch hs

/-- **A good verdict does not exclude references of earlier turns**, although the borrow is exclusive
    and its place is the same in every turn. -/
theorem relay_keeps_earlier :
    relay.draft.validate relayTypes = .ok relay ∧ (relay.check relayTypes {}).ok = true ∧
      relayLoan ∈ relay.issueLoans relayTypes (relay.tracked relayTypes) relay.graph ∧
      relayLoan.kind = .unique ∧ relayLoan.place.path = [] ∧
      relay.Route relayLoan.issuedAt relayTurn ∧ relayLoan.issuedAt ∈ relayTurn ∧
      ∃ t : Token, relay.Holds relayTypes relayTurn t ∧ t.origin = relayLoan.id ∧
        t.holder ∈ (relay.analyse relayTypes 10000).live.liveBefore relayLoan.issuedAt := by
  have hl : relayLoan ∈ relay.issueLoans relayTypes (relay.tracked relayTypes) relay.graph := by
    decide +kernel
  have hok : (relay.check relayTypes {}).ok = true := by decide +kernel
  exact ⟨rfl, hok, hl, rfl, rfl, relayTurn_route, by decide, _, relayTurn_holds, rfl, by decide +kernel⟩

end Ownership
