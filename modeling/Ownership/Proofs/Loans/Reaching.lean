import Ownership.Proofs.Loans.Token
import Ownership.Verify.Analysis

/-!
# Reaching loans and tokens

When liveness and the loan pass converged, the loans in use at a point and the tokens along the
routes to it are the same things, seen from two sides:

* `exists_activeBefore_of_holds`: a token with a live holder is a loan in use;
* `exists_holds_of_activeBefore`: a loan in use is a token, unless a live root that holds one is
  dropped;
* `loans_follow_tokens`: both together.
-/

namespace Ownership

variable {f : Function} {types : TypeTable} {cap : Nat}

/-- The table that the analysis comes with. -/
theorem analyse_table (hf : f.WellFormed) (types : TypeTable) (cap : Nat) :
    LoanTable (f.issueLoans types (f.tracked types) f.graph) (f.analyse types cap).loans.loans := by
  have htable : LoanTable (f.issueLoans types (f.trackLive f.graph types cap).tracked f.graph)
      (f.trackLoans f.graph types cap (f.trackLive f.graph types cap)).loans := Function.loans_table hf
  exact htable

section Both

variable (hf : f.WellFormed) (hlive : (f.analyse types cap).live.converged = true)
  (hloans : (f.analyse types cap).loans.converged = true) {p : Point}

include hf hlive hloans

/-- A token with a live holder is a loan in use. -/
theorem exists_activeBefore_of_holds {ps : List Point} {t : Token} (hr : f.Route p ps)
    (h : f.Holds types ps t) (ht : t.holder ∈ (f.analyse types cap).live.liveBefore p) :
    ∃ x ∈ (f.analyse types cap).loans.activeBefore p, x.hold? = some t.toHold := by
  refine LoanFacts.exists_activeBefore.mpr ⟨?_, ht⟩
  have hcol := Function.reaching_collect hf hloans ⟨ps, hr⟩
  exact hcol ▸ ⟨ps, hr, h.along hf hlive hr ht⟩

omit hlive in
/-- A loan in use is a token along some route, if no statement drops a live root that holds one. -/
theorem exists_holds_of_activeBefore
    (hdrop : ∀ p ps t q, f.Route p ps → f.Holds types ps t → f.statementAt? p = some (.drop q) →
      q.isWhole = true → q.name = t.holder →
      t.holder ∉ (f.analyse types cap).live.liveAfter p)
    (hp : f.Reaches p) {x : Loan} (hx : x ∈ (f.analyse types cap).loans.activeBefore p) :
    ∃ ps t, f.Route p ps ∧ f.Holds types ps t ∧ x.hold? = some t.toHold := by
  obtain ⟨y, hy⟩ : ∃ y, x.hold? = some y := by
    have hheld := (LoanFacts.mem_heldIn.mp hx).2
    unfold Loan.isHeldIn at hheld
    obtain ⟨h, hh, _⟩ := (Option.any_eq_true _ _).mp hheld
    exact ⟨⟨x.origin, x.issuedAt, h⟩, Loan.hold?_eq_some.mpr ⟨rfl, rfl, hh⟩⟩
  obtain ⟨hread, _⟩ := LoanFacts.exists_activeBefore.mp ⟨x, hx, hy⟩
  have hcol := Function.reaching_collect hf hloans hp
  obtain ⟨ps, hr, halong⟩ : y ∈ f.collect _ ∅ p := hcol ▸ hread
  obtain ⟨n, hn⟩ := exists_holds hf hdrop hr halong
  exact ⟨ps, ⟨y, n⟩, hr, hn, hy⟩

end Both

/-- **Reaching loans match the flow of references along routes.** When liveness and the loan pass
    converged, every token with a live holder is a loan in use at the point, with the same origin,
    place of issue and holder; and if no statement drops a whole tracked root, every loan in use is
    such a token along some route. -/
theorem loans_follow_tokens {d : Draft} (hv : d.validate types = .ok f)
    (hlive : (f.analyse types cap).live.converged = true)
    (hloans : (f.analyse types cap).loans.converged = true) {p : Point} (hp : f.Reaches p) :
    (∀ ps t, f.Route p ps → f.Holds types ps t →
      t.holder ∈ (f.analyse types cap).live.liveBefore p →
      ∃ x ∈ (f.analyse types cap).loans.activeBefore p,
        x.origin = t.origin ∧ x.issuedAt = t.madeAt ∧ x.holder = some t.holder) ∧
    ((∀ b ∈ f.blocks, ∀ q, .drop q ∈ b.statements → q.isWhole = true → q.name ∉ f.tracked types) →
      ∀ x ∈ (f.analyse types cap).loans.activeBefore p, ∃ ps t, f.Route p ps ∧ f.Holds types ps t ∧
        t.holder ∈ (f.analyse types cap).live.liveBefore p ∧
        x.origin = t.origin ∧ x.issuedAt = t.madeAt ∧ x.holder = some t.holder) := by
  have hf := Draft.wellFormed_of_validate hv
  refine ⟨fun ps t hr h ht => ?_, fun hnone x hx => ?_⟩
  · obtain ⟨x, hx, hhold⟩ := exists_activeBefore_of_holds hf hlive hloans hr h ht
    exact ⟨x, hx, Loan.hold?_eq_some.mp hhold⟩
  · have hdrop : ∀ p ps t q, f.Route p ps → f.Holds types ps t → f.statementAt? p = some (.drop q) →
        q.isWhole = true → q.name = t.holder →
        t.holder ∉ (f.analyse types cap).live.liveAfter p := by
      intro p ps t q hr _ hs hwhole hname hafter
      obtain ⟨hb, hstmt⟩ := hr.mem_order hf
      obtain ⟨q', hstep, hbefore⟩ := (mem_liveAfter hf hlive hb hstmt).mp hafter
      obtain ⟨hb', hstmt'⟩ := (hr.step hstep).mem_order hf
      have htracked := (liveAt_of_mem_liveBefore hf hb' hstmt' hbefore).mem_tracked
      obtain ⟨hblock, hmem⟩ := Function.block_of_statementAt? hs
      exact hnone _ hblock q hmem hwhole (hname ▸ htracked)
    obtain ⟨ps, t, hr, h, hhold⟩ := exists_holds_of_activeBefore hf hloans hdrop hp hx
    have hfields := Loan.hold?_eq_some.mp hhold
    exact ⟨ps, t, hr, h, (LoanFacts.exists_activeBefore.mp ⟨x, hx, hhold⟩).2, hfields⟩

/-- The types of the example below. -/
def relayTypes : TypeTable where
  defs := [⟨"Bool", .scalar⟩, ⟨"Vec", .owned⟩, ⟨"&mut Vec", .ref true 2⟩, ⟨"Int", .scalar⟩]

/-- A loop in which a reference to `x` is made in one turn and kept for the next. -/
def relay : Function where
  name := "relay"
  params := [⟨⟨.param, "c"⟩, []⟩]
  result := ⟨⟨.result, "_ret"⟩, []⟩
  locals := [("c", ⟨⟨.param, "c"⟩, some 1⟩), ("x", ⟨⟨.localVar, "x"⟩, some 2⟩),
    ("y", ⟨⟨.localVar, "y"⟩, some 2⟩), ("r", ⟨⟨.localVar, "r"⟩, some 3⟩),
    ("v", ⟨⟨.localVar, "v"⟩, some 3⟩), ("_ret", ⟨⟨.result, "_ret"⟩, some 4⟩)]
  blocks := [
    ⟨[.assign ⟨⟨.localVar, "x"⟩, []⟩ (.alloc "Vec"), .assign ⟨⟨.localVar, "y"⟩, []⟩ (.alloc "Vec"),
      .borrow ⟨⟨.localVar, "v"⟩, []⟩ ⟨⟨.localVar, "y"⟩, []⟩ .unique], .goto 1⟩,
    ⟨[.borrow ⟨⟨.localVar, "r"⟩, []⟩ ⟨⟨.localVar, "x"⟩, []⟩ .unique,
      .eval (.call "use" [.copy ⟨⟨.localVar, "v"⟩, []⟩, .copy ⟨⟨.localVar, "r"⟩, []⟩]),
      .assign ⟨⟨.localVar, "v"⟩, []⟩ (.use (.copy ⟨⟨.localVar, "r"⟩, []⟩))],
      .branch (.copy ⟨⟨.param, "c"⟩, []⟩) 1 2⟩,
    ⟨[], .ret⟩]

theorem relay_reaches : relay.Reaches ⟨1, 0⟩ :=
  Function.Reaches.jump ⟨[], .start⟩ List.mem_cons_self

/-- At the head of the loop two loans are in use through `v`, and each is a token along some route. -/
theorem loans_follow_tokens_relay :
    relay.draft.validate relayTypes = .ok relay ∧
      (relay.analyse relayTypes 20).live.converged = true ∧
      (relay.analyse relayTypes 20).loans.converged = true ∧ relay.Reaches ⟨1, 0⟩ ∧
      (∃ ps t, relay.Route ⟨1, 0⟩ ps ∧ relay.Holds relayTypes ps t ∧ t.toHold = ⟨0, ⟨0, 2⟩, "v"⟩) ∧
      ∃ ps t, relay.Route ⟨1, 0⟩ ps ∧ relay.Holds relayTypes ps t ∧ t.toHold = ⟨1, ⟨1, 2⟩, "v"⟩ := by
  have hlive : (relay.analyse relayTypes 20).live.converged = true := by decide +kernel
  have hloans : (relay.analyse relayTypes 20).loans.converged = true := by decide +kernel
  have hnone : ∀ b ∈ relay.blocks, ∀ s ∈ b.statements, s.dest?.isSome ∨ s.value?.isSome := by decide
  have hboth := (loans_follow_tokens (d := relay.draft) (f := relay) rfl hlive hloans relay_reaches).2
    fun b hb q hq => by simpa [Statement.dest?, Statement.value?] using hnone b hb _ hq
  have hactive : (relay.analyse relayTypes 20).loans.activeBefore ⟨1, 0⟩ =
      [⟨0, ⟨⟨.localVar, "y"⟩, []⟩, .unique, ⟨0, 2⟩, some "v", 0⟩,
        ⟨2, ⟨⟨.localVar, "x"⟩, []⟩, .unique, ⟨1, 2⟩, some "v", 1⟩] := by decide +kernel
  rw [hactive] at hboth
  refine ⟨rfl, hlive, hloans, relay_reaches, ?_, ?_⟩
  · obtain ⟨ps, ⟨⟨o, q, r⟩, n⟩, hr, h, _, rfl, rfl, hholder⟩ := hboth _ List.mem_cons_self
    cases hholder
    exact ⟨ps, _, hr, h, rfl⟩
  · obtain ⟨ps, ⟨⟨o, q, r⟩, n⟩, hr, h, _, rfl, rfl, hholder⟩ :=
      hboth _ (List.mem_cons_of_mem _ List.mem_cons_self)
    cases hholder
    exact ⟨ps, _, hr, h, rfl⟩

end Ownership
