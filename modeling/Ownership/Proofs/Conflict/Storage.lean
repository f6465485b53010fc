import Ownership.Proofs.Conflict.Access

/-!
# Storage ends without references to it

Storage ends where a place is dropped, and at a return for all that belongs to the call. If a function
has a good verdict, then along every route no reference in use leads to what is dropped, and the return
place takes no reference to storage of the call along. Other roots that outlive the call are not live
at a return, and what they hold there is not looked at.

* `Place.InFrame`, `Function.ReturnsAt`: storage of the call, and where it ends;
* `Function.drop_silent`, `Function.return_silent`: what silence of the detector says at these points;
* `storage_ends_unreferenced`: the statement for every token;
* `only_result_leaves`: at a return, the return place is the only root that is looked at;
* `leak_keeps_frame_references`: roots that outlive the call may take references to its storage along.
-/

namespace Ownership

/-- The place is storage of the call itself, and not behind a reference. -/
def Place.InFrame (q : Place) : Prop := q.hasDeref = false ∧ q.root.isFrameOwned = true

/-- What is reached without a reference is not behind one. -/
theorem Place.not_isBehind {a b : Place} (h : b.hasDeref = false) : a.isBehind b = false := by
  have hnone : ∀ s ∈ b.path, ¬ s.isDeref = true := List.any_eq_false.mp h
  refine Bool.and_eq_false_iff.mpr (Or.inr (List.any_eq_false.mpr fun s hs => ?_))
  exact hnone s (List.mem_of_mem_drop hs)

/-! ## 1. The frames of a function -/

namespace Function

variable {f : Function} {p : Point} {q : Place}

theorem mem_returns (hb : p.block ∈ f.graph.reachable) (hret : f.ReturnsAt p) :
    p ∈ f.returns f.graph := by
  refine List.mem_filterMap.mpr ⟨p.block, hb, ?_⟩
  rw [if_pos hret.2, ← hret.1]

/-- The frame of a dropped place. -/
def frameOfDrop (q : Place) (p : Point) : Frame := ⟨.drop, "drop " ++ q.render, [q], [p]⟩

theorem mem_frames_drop (hb : p.block ∈ f.graph.reachable) (hs : f.statementAt? p = some (.drop q))
    (hq : q.hasDeref = false) : frameOfDrop q p ∈ f.frames f.graph := by
  refine List.mem_cons_of_mem _ (List.mem_flatMap.mpr ⟨p.block, hb, ?_⟩)
  refine List.mem_filterMap.mpr ⟨_, mem_statementsOf.mpr ⟨rfl, hs⟩, ?_⟩
  exact if_neg (by rw [hq]; exact Bool.false_ne_true)

end Function

/-! ## 2. Silence where storage ends -/

section Silent

variable {f : Function} {types : TypeTable} {s : Settings} (hok : (f.check types s).ok = true)
  {p : Point} (hb : p.block ∈ f.graph.reachable) {x : Loan}

include hok hb

/-- With a good verdict no loan in use behind a drop is of a part of the dropped place. -/
theorem Function.drop_silent {q : Place} (hs : f.statementAt? p = some (.drop q))
    (hq : q.hasDeref = false) (hx : x ∈ (f.analyse types s.maxVisits).loans.activeAfter p) :
    ¬ (x.place.hasDeref = false ∧ x.place.overlaps q = true) := by
  intro ⟨hdirect, hover⟩
  have hnil := Function.exits_eq_nil hok (Function.mem_frames_drop hb hs hq) (List.mem_singleton_self p)
  have howns : (Function.frameOfDrop q p).owns x.place = true := by
    show (!x.place.hasDeref && ([q].any fun a => a.overlaps x.place)) = true
    rw [hdirect, List.any_cons, Place.overlaps_comm, hover]
    rfl
  have hbehind : ([q].any fun a => a.isBehind x.place) = false := by
    rw [List.any_cons, Place.not_isBehind hdirect]
    rfl
  have hx := List.filter_eq_nil_iff.mp (List.map_eq_nil_iff.mp hnil) x hx
  exact hx (Bool.and_eq_true_iff.mpr ⟨howns, (Bool.not_eq_true' _).mpr hbehind⟩)

/-- With a good verdict no loan that leaves at a return is of storage of the call. -/
theorem Function.return_silent (hret : f.ReturnsAt p)
    (hx : x ∈ (f.analyse types s.maxVisits).loans.escaping p) : ¬ x.place.InFrame := by
  intro ⟨hdirect, hroot⟩
  have hnil := Function.exits_eq_nil hok List.mem_cons_self (Function.mem_returns hb hret)
  have hx := List.filter_eq_nil_iff.mp (List.map_eq_nil_iff.mp hnil) x hx
  refine hx (Bool.and_eq_true_iff.mpr ⟨?_, hroot⟩)
  rw [hdirect]
  rfl

end Silent

/-! ## 3. Tokens -/

/-- What is held behind a drop was held before it, by a root that the drop leaves alone. -/
theorem Function.Holds.before_drop {f : Function} {types : TypeTable} {p : Point} {ps : List Point}
    {t : Token} {q : Place} (hs : f.statementAt? p = some (.drop q)) (h : f.Holds types (p :: ps) t) :
    f.Holds types ps t ∧ ∀ s, f.statementAt? p = some s → ¬ s.Ends t.holder := by
  cases h with
  | made hl hp _ =>
    -- a drop makes no loan
    have hborrow := Function.mem_borrows_of_issued hl (hp ▸ hs)
    cases hborrow
  | kept h he => exact ⟨h, he⟩
  | handed _ hs' hflow =>
    cases hs.symm.trans hs'
    exact hflow.elim

section Tokens

variable {f : Function} {types : TypeTable} {s : Settings} (hf : f.WellFormed)
  (hok : (f.check types s).ok = true) {p : Point} {ps : List Point} (hr : f.Route p ps) {t : Token}

include hf hok hr

/-- Behind a drop no token with a live holder leads to the dropped place. -/
theorem dropped_unreferenced {q : Place} (hs : f.statementAt? p = some (.drop q))
    (hq : q.hasDeref = false) (ht : f.Holds types (p :: ps) t)
    (hin : t.holder ∈ (f.analyse types s.maxVisits).live.liveAfter p) :
    ∃ a, (f.analyse types s.maxVisits).loans.loans[t.origin]? = some a ∧
      ¬ (a.place.hasDeref = false ∧ a.place.overlaps q = true) := by
  obtain ⟨_, hlive, hloans⟩ := (Function.ok_iff.mp hok).2
  have hb := hr.mem_reachable hf
  obtain ⟨hbefore, hleft⟩ := ht.before_drop hs
  obtain ⟨a, ha, hta, hget⟩ := hbefore.exists_loan hf
  obtain ⟨x, hx, hhold⟩ := exists_activeAfter_of_holds hf hlive hloans hr hbefore hleft hin
  obtain ⟨⟨_, _, hi⟩, _⟩ := LoanFacts.mem_heldIn.mp hx
  have hstands := Loan.standsFor_of_hold hf ha hta (List.mem_of_getElem? hi) hhold
  exact ⟨a, hget, hstands.place ▸ Function.drop_silent hok hb hs hq hx⟩

/-- At a return no token of a tracked return place leads to storage of the call. -/
theorem returned_unreferenced (hret : f.ReturnsAt p) (htracked : f.result.name ∈ f.tracked types)
    (ht : f.Holds types ps t) (hholder : t.holder = f.result.name) :
    ∃ a, (f.analyse types s.maxVisits).loans.loans[t.origin]? = some a ∧ ¬ a.place.InFrame := by
  obtain ⟨_, hlive, hloans⟩ := (Function.ok_iff.mp hok).2
  have hb := hr.mem_reachable hf
  obtain ⟨a, ha, hta, hget⟩ := ht.exists_loan hf
  obtain ⟨x, hx, hhold⟩ := exists_escaping_of_holds hf hlive hr hret hloans ht hholder htracked
  obtain ⟨i, _, hi⟩ := mem_select.mp (List.mem_of_mem_filter hx)
  have hstands := Loan.standsFor_of_hold hf ha hta (List.mem_of_getElem? hi) hhold
  exact ⟨a, hget, hstands.place ▸ Function.return_silent hok hb hret hx⟩

end Tokens

/-! ## 4. Where storage ends -/

/-- **With a good verdict, storage ends without references to it.** Along every route, behind a drop of
    a place that is reached without a reference, no token is left that a live root holds and whose
    place is reached without a reference and overlaps the dropped one; and at a return, no token of a
    tracked return place leads to storage of the call. -/
theorem storage_ends_unreferenced {d : Draft} {f : Function} {types : TypeTable}
    (hv : d.validate types = .ok f) {s : Settings} (hok : (f.check types s).ok = true) {p : Point}
    {ps : List Point} (hr : f.Route p ps) :
    (∀ q, f.statementAt? p = some (.drop q) → q.hasDeref = false →
      ∀ t, f.Holds types (p :: ps) t →
        t.holder ∈ (f.analyse types s.maxVisits).live.liveAfter p →
        ∃ a, (f.analyse types s.maxVisits).loans.loans[t.origin]? = some a ∧
          ¬ (a.place.hasDeref = false ∧ a.place.overlaps q = true)) ∧
    (f.ReturnsAt p → f.result.name ∈ f.tracked types →
      ∀ t, f.Holds types ps t → t.holder = f.result.name →
        ∃ a, (f.analyse types s.maxVisits).loans.loans[t.origin]? = some a ∧ ¬ a.place.InFrame) := by
  have hf := Draft.wellFormed_of_validate hv
  refine ⟨fun q hs hq t ht hin => ?_, fun hret htracked t ht hholder => ?_⟩
  · exact dropped_unreferenced hf hok hr hs hq ht hin
  · exact returned_unreferenced hf hok hr hret htracked ht hholder

/-- The types of `tidy` and `leak`. -/
def storageTypes : TypeTable where
  defs := [⟨"Vec", .owned⟩, ⟨"&Vec", .ref false 1⟩, ⟨"&mut &Vec", .ref true 2⟩, ⟨"Int", .scalar⟩]

/-- A root that belongs to the call. -/
def localRoot (name : String) : Place := ⟨⟨.localVar, name⟩, []⟩

/-- What the parameter `p` leads to. -/
def behindParam : Place := ⟨⟨.param, "p"⟩, [.deref]⟩

/-- Drops one root while a reference to another is in use, and returns what the parameter leads to. -/
def tidy : Function where
  name := "tidy"
  params := [⟨⟨.param, "p"⟩, []⟩]
  result := ⟨⟨.result, "_ret"⟩, []⟩
  locals := [("p", ⟨⟨.param, "p"⟩, some 2⟩), ("x", ⟨⟨.localVar, "x"⟩, some 1⟩),
    ("y", ⟨⟨.localVar, "y"⟩, some 1⟩), ("r", ⟨⟨.localVar, "r"⟩, some 2⟩),
    ("_ret", ⟨⟨.result, "_ret"⟩, some 2⟩)]
  blocks := [
    ⟨[.assign (localRoot "x") (.alloc "Vec"), .assign (localRoot "y") (.alloc "Vec"),
      .borrow (localRoot "r") (localRoot "y") .shared, .drop (localRoot "x"),
      .eval (.call "use" [.copy (localRoot "r")]),
      .borrow ⟨⟨.result, "_ret"⟩, []⟩ behindParam .shared], .ret⟩]

/-- The loan that `r` holds in `tidy`. -/
def tidyLocal : Loan := ⟨0, localRoot "y", .shared, ⟨0, 2⟩, some "r", 0⟩

/-- The loan that `tidy` returns. -/
def tidyReturned : Loan := ⟨1, behindParam, .shared, ⟨0, 5⟩, some "_ret", 1⟩

/-- The points of `tidy`, the latest first. -/
def tidyWay : List Point := [⟨0, 5⟩, ⟨0, 4⟩, ⟨0, 3⟩, ⟨0, 2⟩, ⟨0, 1⟩, ⟨0, 0⟩]

theorem tidyWay_route_drop : tidy.Route ⟨0, 3⟩ (tidyWay.drop 3) :=
  .step (.step (.step .start (.next (by decide))) (.next (by decide))) (.next (by decide))

theorem tidyWay_route : tidy.Route ⟨0, 6⟩ tidyWay :=
  .step (.step (.step tidyWay_route_drop (.next (by decide))) (.next (by decide))) (.next (by decide))

theorem tidyWay_holds_local : tidy.Holds storageTypes (tidyWay.drop 2) ⟨⟨0, ⟨0, 2⟩, "r"⟩, 2⟩ := by
  have hmade : tidy.Holds storageTypes (tidyWay.drop 3) ⟨⟨0, ⟨0, 2⟩, "r"⟩, 2⟩ :=
    .made (l := tidyLocal) (by decide +kernel) rfl rfl
  exact hmade.over rfl (by decide)

theorem tidyWay_holds_returned : tidy.Holds storageTypes tidyWay ⟨⟨1, ⟨0, 5⟩, "_ret"⟩, 5⟩ :=
  .made (l := tidyReturned) (by decide +kernel) rfl rfl

/-- Behind the drop of `x` the root `r` leads elsewhere, and what is returned is not storage of the
    call. -/
theorem storage_ends_unreferenced_tidy :
    tidy.draft.validate storageTypes = .ok tidy ∧ (tidy.check storageTypes {}).ok = true ∧
      tidy.Route ⟨0, 3⟩ (tidyWay.drop 3) ∧ tidy.Route ⟨0, 6⟩ tidyWay ∧
      tidy.statementAt? ⟨0, 3⟩ = some (.drop (localRoot "x")) ∧ tidy.ReturnsAt ⟨0, 6⟩ ∧
      "r" ∈ (tidy.analyse storageTypes 10000).live.liveAfter ⟨0, 3⟩ ∧
      "_ret" ∈ tidy.tracked storageTypes ∧
      tidy.Holds storageTypes (tidyWay.drop 2) ⟨⟨0, ⟨0, 2⟩, "r"⟩, 2⟩ ∧
      tidy.Holds storageTypes tidyWay ⟨⟨1, ⟨0, 5⟩, "_ret"⟩, 5⟩ ∧
      (localRoot "y").overlaps (localRoot "x") = false ∧ ¬ behindParam.InFrame := by
  have hok : (tidy.check storageTypes {}).ok = true := by decide +kernel
  have hafter : "r" ∈ (tidy.analyse storageTypes 10000).live.liveAfter ⟨0, 3⟩ := by decide +kernel
  have htracked : "_ret" ∈ tidy.tracked storageTypes := by decide +kernel
  have hlocal : (tidy.analyse storageTypes 10000).loans.loans[0]? = some tidyLocal := by
    decide +kernel
  have hreturned : (tidy.analyse storageTypes 10000).loans.loans[1]? = some tidyReturned := by
    decide +kernel
  obtain ⟨hdrop, _⟩ := storage_ends_unreferenced (d := tidy.draft) (f := tidy) rfl hok
    tidyWay_route_drop
  obtain ⟨_, hret⟩ := storage_ends_unreferenced (d := tidy.draft) (f := tidy) rfl hok
    tidyWay_route
  obtain ⟨a, ha, hclear⟩ := hdrop _ rfl rfl _ tidyWay_holds_local hafter
  obtain ⟨b, hb, houtside⟩ := hret ⟨rfl, rfl⟩ htracked _ tidyWay_holds_returned rfl
  cases ha.symm.trans hlocal
  cases hb.symm.trans hreturned
  exact ⟨rfl, hok, tidyWay_route_drop, tidyWay_route, rfl, ⟨rfl, rfl⟩, hafter, htracked,
    tidyWay_holds_local, tidyWay_holds_returned,
    Bool.eq_false_iff.mpr fun hover => hclear ⟨rfl, hover⟩, houtside⟩

/-- **At a return, the return place is the only root that is looked at.** With a good verdict, where a
    route comes to a return, the return place is live if it is tracked, and no other root is; the loans
    in use are loans of the return place and not of storage of the call; and no token of a tracked
    return place leads to storage of the call. -/
theorem only_result_leaves {d : Draft} {f : Function} {types : TypeTable}
    (hv : d.validate types = .ok f) {s : Settings} (hok : (f.check types s).ok = true) {p : Point}
    {ps : List Point} (hr : f.Route p ps) (hret : f.ReturnsAt p) :
    (∀ r, r ∈ (f.analyse types s.maxVisits).live.liveBefore p ↔
      r = f.result.name ∧ r ∈ f.tracked types) ∧
    (∀ x ∈ (f.analyse types s.maxVisits).loans.activeBefore p,
      x.holder = some f.result.name ∧ ¬ x.place.InFrame) ∧
    (f.result.name ∈ f.tracked types → ∀ t, f.Holds types ps t → t.holder = f.result.name →
      ∃ a, (f.analyse types s.maxVisits).loans.loans[t.origin]? = some a ∧ ¬ a.place.InFrame) := by
  have hf := Draft.wellFormed_of_validate hv
  obtain ⟨_, hlive, _⟩ := (Function.ok_iff.mp hok).2
  have hb := hr.mem_reachable hf
  refine ⟨fun r => Function.mem_liveBefore_return hf hlive hr hret, fun x hx => ?_,
    fun htracked t ht hholder => returned_unreferenced hf hok hr hret htracked ht hholder⟩
  obtain ⟨hleaves, hholder⟩ := mem_escaping_of_activeBefore hf hlive hr hret hx
  exact ⟨hholder, Function.return_silent hok hb hret hleaves⟩

/-- Where `tidy` returns, only the return place is live, and what it holds is not storage of the
    call. -/
theorem only_result_leaves_tidy :
    tidy.draft.validate storageTypes = .ok tidy ∧ (tidy.check storageTypes {}).ok = true ∧
      tidy.Route ⟨0, 6⟩ tidyWay ∧ tidy.ReturnsAt ⟨0, 6⟩ ∧
      "_ret" ∈ tidy.tracked storageTypes ∧
      tidyReturned ∈ (tidy.analyse storageTypes 10000).loans.activeBefore ⟨0, 6⟩ ∧
      tidy.Holds storageTypes tidyWay ⟨⟨1, ⟨0, 5⟩, "_ret"⟩, 5⟩ ∧
      "_ret" ∈ (tidy.analyse storageTypes 10000).live.liveBefore ⟨0, 6⟩ ∧
      "p" ∉ (tidy.analyse storageTypes 10000).live.liveBefore ⟨0, 6⟩ ∧
      ¬ behindParam.InFrame := by
  have hok : (tidy.check storageTypes {}).ok = true := by decide +kernel
  have htracked : "_ret" ∈ tidy.tracked storageTypes := by decide +kernel
  have hactive : tidyReturned ∈ (tidy.analyse storageTypes 10000).loans.activeBefore ⟨0, 6⟩ := by
    decide +kernel
  obtain ⟨hlive, hused, _⟩ := only_result_leaves (d := tidy.draft) (f := tidy) rfl hok
    tidyWay_route ⟨rfl, rfl⟩
  refine ⟨rfl, hok, tidyWay_route, ⟨rfl, rfl⟩, htracked, hactive, tidyWay_holds_returned,
    (hlive _).mpr ⟨rfl, htracked⟩, fun hp => ?_, (hused _ hactive).2⟩
  have hname : "p" = tidy.result.name := ((hlive _).mp hp).1
  exact absurd hname (by decide)

/-- Stores references to its own root in a global root, behind a parameter, and in a return place that
    is not tracked. -/
def leak : Function where
  name := "leak"
  params := [⟨⟨.param, "p"⟩, []⟩]
  result := ⟨⟨.result, "_ret"⟩, []⟩
  locals := [("p", ⟨⟨.param, "p"⟩, some 3⟩), ("x", ⟨⟨.localVar, "x"⟩, some 1⟩),
    ("r", ⟨⟨.localVar, "r"⟩, some 2⟩), ("g", ⟨⟨.globalVar, "g"⟩, some 2⟩),
    ("_ret", ⟨⟨.result, "_ret"⟩, some 4⟩)]
  blocks := [
    ⟨[.assign (localRoot "x") (.alloc "Vec"),
      .borrow ⟨⟨.globalVar, "g"⟩, []⟩ (localRoot "x") .shared,
      .borrow behindParam (localRoot "x") .shared,
      .borrow (localRoot "r") (localRoot "x") .shared,
      .move ⟨⟨.result, "_ret"⟩, []⟩ (localRoot "r")], .ret⟩]

/-- The points of `leak`, the latest first. -/
def leakWay : List Point := [⟨0, 4⟩, ⟨0, 3⟩, ⟨0, 2⟩, ⟨0, 1⟩, ⟨0, 0⟩]

/-- A loan of the root `x` of `leak`. -/
def leakLoan (id : Nat) (p : Point) (holder : String) : Loan :=
  ⟨id, localRoot "x", .shared, p, some holder, id⟩

theorem leakWay_route : leak.Route ⟨0, 5⟩ leakWay :=
  .step (.step (.step (.step (.step .start (.next (by decide))) (.next (by decide)))
    (.next (by decide))) (.next (by decide))) (.next (by decide))

theorem leakWay_holds_global : leak.Holds storageTypes leakWay ⟨⟨0, ⟨0, 1⟩, "g"⟩, 1⟩ := by
  have hmade : leak.Holds storageTypes (leakWay.drop 3) ⟨⟨0, ⟨0, 1⟩, "g"⟩, 1⟩ :=
    .made (l := leakLoan 0 ⟨0, 1⟩ "g") (by decide +kernel) rfl rfl
  have hborrowed : leak.Holds storageTypes (leakWay.drop 1) ⟨⟨0, ⟨0, 1⟩, "g"⟩, 1⟩ :=
    (hmade.over (p := ⟨0, 2⟩) rfl (by decide)).over (p := ⟨0, 3⟩) rfl (by decide)
  exact hborrowed.over rfl (by decide)

theorem leakWay_holds_param : leak.Holds storageTypes leakWay ⟨⟨1, ⟨0, 2⟩, "p"⟩, 2⟩ := by
  have hmade : leak.Holds storageTypes (leakWay.drop 2) ⟨⟨1, ⟨0, 2⟩, "p"⟩, 2⟩ :=
    .made (l := leakLoan 1 ⟨0, 2⟩ "p") (by decide +kernel) rfl rfl
  have hborrowed : leak.Holds storageTypes (leakWay.drop 1) ⟨⟨1, ⟨0, 2⟩, "p"⟩, 2⟩ :=
    hmade.over rfl (by decide)
  exact hborrowed.over rfl (by decide)

theorem leakWay_holds_result : leak.Holds storageTypes leakWay ⟨⟨2, ⟨0, 4⟩, "_ret"⟩, 3⟩ := by
  have hmade : leak.Holds storageTypes (leakWay.drop 1) ⟨⟨2, ⟨0, 3⟩, "r"⟩, 3⟩ :=
    .made (l := leakLoan 2 ⟨0, 3⟩ "r") (by decide +kernel) rfl rfl
  exact .handed (s := .move ⟨⟨.result, "_ret"⟩, []⟩ (localRoot "r")) hmade rfl ⟨by decide +kernel, rfl⟩

/-- **Roots that outlive the call may take references to its storage along**: the verdict on `leak` is
    good, and at its return a global root, the parameter and the return place hold references to a root
    of the call. -/
theorem leak_keeps_frame_references :
    leak.draft.validate storageTypes = .ok leak ∧ (leak.check storageTypes {}).ok = true ∧
      leak.Route ⟨0, 5⟩ leakWay ∧ leak.ReturnsAt ⟨0, 5⟩ ∧ (localRoot "x").InFrame ∧
      ((leak.analyse storageTypes 10000).loans.loans.take 3).map Loan.place =
        List.replicate 3 (localRoot "x") ∧
      leak.statementAt? ⟨0, 2⟩ = some (.borrow behindParam (localRoot "x") .shared) ∧
      leak.Holds storageTypes leakWay ⟨⟨0, ⟨0, 1⟩, "g"⟩, 1⟩ ∧
      leak.Holds storageTypes leakWay ⟨⟨1, ⟨0, 2⟩, "p"⟩, 2⟩ ∧
      leak.Holds storageTypes leakWay ⟨⟨2, ⟨0, 4⟩, "_ret"⟩, 3⟩ :=
  ⟨rfl, by decide +kernel, leakWay_route, ⟨rfl, rfl⟩, ⟨rfl, rfl⟩, by decide +kernel, rfl,
    leakWay_holds_global, leakWay_holds_param, leakWay_holds_result⟩

end Ownership
