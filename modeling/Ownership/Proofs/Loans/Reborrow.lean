import Ownership.Proofs.Loans.Reaching

/-!
# Borrowing what a holder leads to

A root that holds references may be borrowed itself. If the borrow goes through the reference, then the
new reference and those that the root holds travel together: whatever root the new one comes to, it
holds the others too, and they are in use as long as it is. A borrow of the root alone hands nothing
on: the references stay with the root, and are in use as long as the root is.

* `Function.Holds.company`: what a statement hands on travels with what it makes;
* `Function.Holds.stays`: a root keeps what it holds until it is written or dropped as a whole;
* `reborrow_keeps_references`: both, for the loans in use;
* `shelve_loses_references`: a borrow of the root alone does not keep the references in use.
-/

namespace Ownership

variable {f : Function} {types : TypeTable} {cap : Nat}

/-! ## 1. Tokens since the borrow -/

section Since

variable {p : Point} {past later : List Point} {o : Token} (ho : f.Holds types past o)

include ho

/-- **What a statement hands on travels with what it makes**: a root that holds a reference made at `p`
    holds what was handed on there. -/
theorem Function.Holds.company {s : Statement} (hs : f.statementAt? p = some s)
    (hflow : f.Flows types (f.tracked types) s o.holder) :
    ∀ {t : Token}, f.Holds types (later ++ p :: past) t → t.moment = past.length →
      ∃ u : Token, f.Holds types (later ++ p :: past) u ∧ u.origin = o.origin ∧ u.holder = t.holder := by
  induction later with
  | nil =>
    intro t h hm
    cases h with
    | made hl hp hx =>
      have hborrow := Function.mem_borrows_of_issued hl (hp ▸ hs)
      rw [(Loan.hold?_eq_some.mp hx).2.2] at hborrow
      obtain ⟨d, hd, hname⟩ := Function.exists_dest_of_borrows hborrow
      obtain ⟨d', hd', hname'⟩ := hflow.exists_dest
      cases hd.symm.trans hd'
      exact ⟨_, .handed ho hs hflow, rfl, hname'.symm.trans hname⟩
    | kept h _ => exact absurd hm (Nat.ne_of_lt h.moment_lt)
    | handed h _ _ => exact absurd hm (Nat.ne_of_lt h.moment_lt)
  | cons c later ih =>
    intro t h hm
    cases h with
    | made _ _ _ =>
      have hlong : (later ++ p :: past).length = past.length := hm
      rw [List.length_append, List.length_cons] at hlong
      omega
    | kept h he =>
      obtain ⟨u, hu, horigin, hholder⟩ := ih h hm
      exact ⟨u, .kept hu (hholder ▸ he), horigin, hholder⟩
    | handed h hs' hflow' =>
      obtain ⟨u, hu, horigin, hholder⟩ := ih h hm
      exact ⟨_, .handed hu hs' (hholder ▸ hflow'), horigin, rfl⟩

/-- **A root keeps what it holds until it is written or dropped as a whole.** -/
theorem Function.Holds.stays
    (hleft : ∀ c ∈ later, ∀ s, f.statementAt? c = some s → ¬ s.Ends o.holder) :
    f.Holds types (later ++ past) o := by
  induction later with
  | nil => exact ho
  | cons c later ih =>
    have hrest := ih fun c' hc' => hleft c' (List.mem_cons_of_mem _ hc')
    exact .kept hrest (hleft c List.mem_cons_self)

end Since

/-! ## 2. Loans in use -/

/-- **Borrowing through a holder keeps its references in use.** When liveness and the loan pass
    converged, and a root held a token before a route passed `p`: if the statement there borrows through
    a reference of that root, then wherever a live root holds the reference that was made then, a loan of
    the token's origin is in use through that root; and whatever the statement borrows, while the holder
    is live and has not been written or dropped as a whole since, a loan of the token's origin is in use
    through the holder. -/
theorem reborrow_keeps_references {d : Draft} (hv : d.validate types = .ok f)
    (hlive : (f.analyse types cap).live.converged = true)
    (hloans : (f.analyse types cap).loans.converged = true) {p q : Point} {later past : List Point}
    (hr : f.Route q (later ++ p :: past)) {o : Token} (ho : f.Holds types past o) :
    (∀ dest src k, f.statementAt? p = some (.borrow dest src k) → src.hasDeref = true →
      src.name ∈ f.tracked types → src.name = o.holder →
      ∀ t, f.Holds types (later ++ p :: past) t → t.moment = past.length →
        t.holder ∈ (f.analyse types cap).live.liveBefore q →
        ∃ x ∈ (f.analyse types cap).loans.activeBefore q,
          x.origin = o.origin ∧ x.holder = some t.holder) ∧
    ((∀ c ∈ later ++ [p], ∀ s, f.statementAt? c = some s → ¬ s.Ends o.holder) →
      o.holder ∈ (f.analyse types cap).live.liveBefore q →
      ∃ x ∈ (f.analyse types cap).loans.activeBefore q,
        x.origin = o.origin ∧ x.holder = some o.holder) := by
  have hf := Draft.wellFormed_of_validate hv
  have hused : ∀ u : Token, f.Holds types (later ++ p :: past) u → u.origin = o.origin →
      u.holder ∈ (f.analyse types cap).live.liveBefore q →
      ∃ x ∈ (f.analyse types cap).loans.activeBefore q,
        x.origin = o.origin ∧ x.holder = some u.holder := by
    intro u hu horigin hin
    obtain ⟨x, hx, hhold⟩ := exists_activeBefore_of_holds hf hlive hloans hr hu hin
    obtain ⟨hxu, _, hxholder⟩ := Loan.hold?_eq_some.mp hhold
    exact ⟨x, hx, hxu.trans horigin, hxholder⟩
  refine ⟨fun dest src k hs hderef htracked hname t ht hm hin => ?_, fun hleft hin => ?_⟩
  · obtain ⟨u, hu, horigin, hsame⟩ := ho.company hs ⟨hderef, htracked, hname⟩ ht hm
    exact hsame ▸ hused u hu horigin (hsame ▸ hin)
  · have hstays := ho.stays hleft
    rw [List.append_assoc] at hstays
    exact hused o hstays rfl hin

/-- The types of `shelve`. -/
def shelveTypes : TypeTable where
  defs := [⟨"Vec", .owned⟩, ⟨"&Vec", .ref false 1⟩, ⟨"& &Vec", .ref false 2⟩, ⟨"Int", .scalar⟩]

/-- A root of `shelve`. -/
def shelved (name : String) : Place := ⟨⟨.localVar, name⟩, []⟩

/-- A place of `shelve` behind the root `rr`. -/
def behindShelved : Place := ⟨⟨.localVar, "rr"⟩, [.deref]⟩

/-- References to the reference `r` are kept, and `r` is not mentioned again. -/
def shelve : Function where
  name := "shelve"
  params := []
  result := ⟨⟨.result, "_ret"⟩, []⟩
  locals := [("x", ⟨⟨.localVar, "x"⟩, some 1⟩), ("r", ⟨⟨.localVar, "r"⟩, some 2⟩),
    ("rr", ⟨⟨.localVar, "rr"⟩, some 3⟩), ("w", ⟨⟨.localVar, "w"⟩, some 3⟩),
    ("v", ⟨⟨.localVar, "v"⟩, some 3⟩), ("_ret", ⟨⟨.result, "_ret"⟩, some 4⟩)]
  blocks := [
    ⟨[.assign (shelved "x") (.alloc "Vec"), .borrow (shelved "r") (shelved "x") .shared,
      .borrow (shelved "rr") (shelved "r") .shared,
      .assign (shelved "w") (.use (.ref (shelved "r") .shared)),
      .borrow (shelved "v") behindShelved .shared,
      .eval (.call "take" [.move (shelved "x")]),
      .eval (.call "use" [.copy (shelved "v"), .copy (shelved "w"), .copy (shelved "rr")])], .ret⟩]

/-- The points of `shelve` up to the move, the latest first. -/
def shelveWay : List Point := [⟨0, 4⟩, ⟨0, 3⟩, ⟨0, 2⟩, ⟨0, 1⟩, ⟨0, 0⟩]

theorem shelveWay_route : shelve.Route ⟨0, 5⟩ shelveWay :=
  .step (.step (.step (.step (.step .start (.next (by decide))) (.next (by decide)))
    (.next (by decide))) (.next (by decide))) (.next (by decide))

theorem shelveWay_holds_rr :
    shelve.Holds shelveTypes (shelveWay.drop 1) ⟨⟨1, ⟨0, 2⟩, "rr"⟩, 2⟩ := by
  have hmade : shelve.Holds shelveTypes (shelveWay.drop 2) ⟨⟨1, ⟨0, 2⟩, "rr"⟩, 2⟩ :=
    .made (l := ⟨1, shelved "r", .shared, ⟨0, 2⟩, some "rr", 1⟩) (by decide +kernel) rfl rfl
  exact hmade.over rfl (by decide)

theorem shelveWay_holds_w : shelve.Holds shelveTypes shelveWay ⟨⟨2, ⟨0, 3⟩, "w"⟩, 3⟩ := by
  have hmade : shelve.Holds shelveTypes (shelveWay.drop 1) ⟨⟨2, ⟨0, 3⟩, "w"⟩, 3⟩ :=
    .made (l := ⟨2, shelved "r", .shared, ⟨0, 3⟩, some "w", 2⟩) (by decide +kernel) rfl rfl
  exact hmade.over rfl (by decide)

/-- What `rr` holds is in use through `v`, which borrowed through `rr`, and through `rr` itself. -/
theorem reborrow_keeps_references_shelve :
    shelve.draft.validate shelveTypes = .ok shelve ∧
      (shelve.analyse shelveTypes 20).live.converged = true ∧
      (shelve.analyse shelveTypes 20).loans.converged = true ∧
      shelve.Route ⟨0, 5⟩ shelveWay ∧
      shelve.Holds shelveTypes (shelveWay.drop 1) ⟨⟨1, ⟨0, 2⟩, "rr"⟩, 2⟩ ∧
      shelve.Holds shelveTypes shelveWay ⟨⟨3, ⟨0, 4⟩, "v"⟩, 4⟩ ∧
      (∃ x ∈ (shelve.analyse shelveTypes 20).loans.activeBefore ⟨0, 5⟩,
        x.origin = 1 ∧ x.holder = some "v") ∧
      ∃ x ∈ (shelve.analyse shelveTypes 20).loans.activeBefore ⟨0, 5⟩,
        x.origin = 1 ∧ x.holder = some "rr" := by
  have hlive : (shelve.analyse shelveTypes 20).live.converged = true := by decide +kernel
  have hloans : (shelve.analyse shelveTypes 20).loans.converged = true := by decide +kernel
  have hmade : shelve.Holds shelveTypes shelveWay ⟨⟨3, ⟨0, 4⟩, "v"⟩, 4⟩ :=
    .made (l := ⟨3, behindShelved, .shared, ⟨0, 4⟩, some "v", 3⟩) (by decide +kernel) rfl rfl
  have hroute : shelve.Route ⟨0, 5⟩ ([] ++ ⟨0, 4⟩ :: shelveWay.drop 1) := shelveWay_route
  obtain ⟨hthrough, hstays⟩ := reborrow_keeps_references (d := shelve.draft) (f := shelve) rfl hlive
    hloans hroute shelveWay_holds_rr
  refine ⟨rfl, hlive, hloans, shelveWay_route, shelveWay_holds_rr, hmade, ?_, ?_⟩
  · exact hthrough _ _ _ rfl rfl (by decide +kernel) rfl _ hmade rfl (by decide +kernel)
  · refine hstays (fun c hc s hs => ?_) (by decide +kernel)
    cases List.mem_singleton.mp hc
    cases hs
    decide

/-- **A borrow of the root alone does not keep its references in use**: `r` held a reference to `x` when
    `rr` and `w` borrowed `r`. Both are live before `x` is moved away, but no loan of `x` is in use
    there, and the verdict is good. -/
theorem shelve_loses_references :
    shelve.draft.validate shelveTypes = .ok shelve ∧
      (shelve.analyse shelveTypes 20).live.converged = true ∧
      (shelve.analyse shelveTypes 20).loans.converged = true ∧
      shelve.handsOn shelveTypes (shelve.tracked shelveTypes) (shelved "r") = true ∧
      shelve.Holds shelveTypes (shelveWay.drop 3) ⟨⟨0, ⟨0, 1⟩, "r"⟩, 1⟩ ∧
      shelve.Route ⟨0, 5⟩ shelveWay ∧
      shelve.Holds shelveTypes shelveWay ⟨⟨1, ⟨0, 2⟩, "rr"⟩, 2⟩ ∧
      shelve.Holds shelveTypes shelveWay ⟨⟨2, ⟨0, 3⟩, "w"⟩, 3⟩ ∧
      "rr" ∈ (shelve.analyse shelveTypes 20).live.liveBefore ⟨0, 5⟩ ∧
      "w" ∈ (shelve.analyse shelveTypes 20).live.liveBefore ⟨0, 5⟩ ∧
      (∀ x ∈ (shelve.analyse shelveTypes 20).loans.activeBefore ⟨0, 5⟩, x.origin ≠ 0) ∧
      (shelve.check shelveTypes {}).ok = true := by
  have hmade : shelve.Holds shelveTypes (shelveWay.drop 3) ⟨⟨0, ⟨0, 1⟩, "r"⟩, 1⟩ :=
    .made (l := ⟨0, shelved "x", .shared, ⟨0, 1⟩, some "r", 0⟩) (by decide +kernel) rfl rfl
  exact ⟨rfl, by decide +kernel, by decide +kernel, by decide +kernel, hmade, shelveWay_route,
    shelveWay_holds_rr.over rfl (by decide), shelveWay_holds_w, by decide +kernel, by decide +kernel,
    by decide +kernel, by decide +kernel⟩

end Ownership
