import Ownership.Proofs.Conflict.Silence
import Ownership.Proofs.Place.Disjoint

/-!
# References of different borrows exclude each other

If a function has a good verdict, then along every route two references that are in use together,
come from different borrows and lead to overlapping places are both shared. The one exception is made
where a reference is replaced by one that was made through it: the earlier reference then led through
its holder, off which the new place hangs.

* `Function.ThroughHolder`: the exception, at the moment at which the later loan was made;
* `shared_or_through_of_lt`, `shared_or_through_of_eq`: a token made in an earlier step, and one made
  in the same;
* `tokens_exclusive`: the statement for any two tokens.
-/

namespace Ownership

/-! ## 1. Two tokens -/

/-- When the loan `b` of the later token `u` was made, the earlier token `t` of the loan `a` led
    through its holder of that time, off which the new place hangs too. -/
def Function.ThroughHolder (f : Function) (types : TypeTable) (ps : List Point) (t u : Token)
    (a b : Loan) : Prop :=
  (t.moment < u.moment ∧ ∃ later past t', ps = later ++ b.issuedAt :: past ∧ past.length = u.moment ∧
    f.Holds types past t' ∧ t'.origin = t.origin ∧ t'.moment = t.moment ∧
    f.Carries types (later ++ [b.issuedAt]) t'.holder t.holder ∧
    Loan.isThroughOldValue { a with holder := some t'.holder } b.place = true) ∨
  (t.moment = u.moment ∧ a.id < b.id ∧ a.isThroughOldValue b.place = true)

/-- A loan that is not in the way of another of overlapping place is through its holder, or both are
    shared. -/
theorem shared_or_through {x l : Loan} (h : (x.isTouched l.place && x.excludes l) = false)
    (hne : x.origin ≠ l.origin) (hover : x.place.overlaps l.place = true) :
    (x.kind = .shared ∧ l.kind = .shared) ∨ x.isThroughOldValue l.place = true := by
  rcases Bool.and_eq_false_iff.mp h with htouch | hexcl
  · unfold Loan.isTouched at htouch
    rw [hover, Bool.true_and, Bool.not_eq_false'] at htouch
    exact Or.inr htouch
  · unfold Loan.excludes at hexcl
    rw [bne_iff_ne.mpr hne, Bool.true_and, Bool.not_eq_false', Bool.and_eq_true, beq_iff_eq,
      beq_iff_eq] at hexcl
    exact Or.inl ⟨hexcl.2, hexcl.1⟩

section Tokens

variable {f : Function} {types : TypeTable} {s : Settings}

/-- The loan that a token goes back to is told by its number. -/
theorem issued_unique {a b : Loan} (ha : a ∈ f.issueLoans types (f.tracked types) f.graph)
    (hb : b ∈ f.issueLoans types (f.tracked types) f.graph) (h : a.id = b.id) : a = b := by
  have htable : LoanTable (f.issueLoans types (f.tracked types) f.graph) _ :=
    Function.issueLoans_table (f.tracked types) f.graph
  have hget := htable.get_of_mem hb
  rw [← h, htable.get_of_mem ha] at hget
  exact Option.some.inj hget

theorem issued_origin {a : Loan} (ha : a ∈ f.issueLoans types (f.tracked types) f.graph) :
    a.origin = a.id :=
  (Function.issueLoans_table (f.tracked types) f.graph).own a ha

/-- Every loan of the table has the place and the kind of the loan that it goes back to. -/
theorem place_of_origin (hf : f.WellFormed) {cap : Nat} {x : Loan}
    (hx : x ∈ (f.analyse types cap).loans.loans) {a : Loan}
    (ha : a ∈ f.issueLoans types (f.tracked types) f.graph) (h : a.id = x.origin) :
    x.place = a.place ∧ x.kind = a.kind := by
  obtain ⟨o, ho, hplace, hkind⟩ := (analyse_table hf types cap).rooted x hx
  have hid : o.id = x.origin :=
    (Function.issueLoans_table (f.tracked types) f.graph).numbered x.origin o ho
  cases issued_unique (List.mem_of_getElem? ho) ha (hid.trans h.symm)
  exact ⟨hplace.symm, hkind.symm⟩

variable (hf : f.WellFormed) (hok : (f.check types s).ok = true) {p : Point} {ps : List Point}
  (hr : f.Route p ps) {t u : Token} (ht : f.Holds types ps t) (hu : f.Holds types ps u)
  (hlive : t.holder ∈ (f.analyse types s.maxVisits).live.liveBefore p)
  {a b : Loan} (ha : a ∈ f.issueLoans types (f.tracked types) f.graph) (hta : a.id = t.origin)
  (hb : b ∈ f.issueLoans types (f.tracked types) f.graph) (hub : b.id = u.origin)
  (hne : t.origin ≠ u.origin) (hover : a.place.overlaps b.place = true)

include hf hok hr ht hu hlive ha hta hb hub hne hover

/-- A token whose loan was made in an earlier step: it was in use where the later loan was made. -/
theorem shared_or_through_of_lt (hlt : t.moment < u.moment) :
    (a.kind = .shared ∧ b.kind = .shared) ∨ f.ThroughHolder types ps t u a b := by
  obtain ⟨_, hclive, hcloans⟩ := (Function.ok_iff.mp hok).2
  obtain ⟨l, hl, hlu, later, past, rfl, hlen⟩ := hu.made_at
  cases issued_unique hl hb (((issued_origin hl).symm.trans hlu).trans hub.symm)
  obtain ⟨t', ht', ho, hm, hlive', hcarry⟩ := ht.back hf hclive (hlen ▸ hlt) hr hlive
  have hrq : f.Route b.issuedAt past := hr.of_suffix (List.suffix_append _ _)
  obtain ⟨x, hx, hhold⟩ := exists_activeBefore_of_holds hf hclive hcloans hrq ht' hlive'
  obtain ⟨hxo, _, hxh⟩ := Loan.hold?_eq_some.mp hhold
  have hxa : a.id = x.origin := hta.trans (ho.symm.trans hxo.symm)
  obtain ⟨⟨_, _, hget⟩, _⟩ := LoanFacts.mem_heldIn.mp hx
  obtain ⟨hplace, hkind⟩ := place_of_origin hf (List.mem_of_getElem? hget) ha hxa
  have hxl : x.origin ≠ b.origin := by
    rw [← hxa, hta, hlu]
    exact hne
  rcases shared_or_through ((Function.not_excluded_of_ok hf hok hb).1 x hx) hxl (hplace ▸ hover) with
    hshared | hthrough
  · exact Or.inl (hkind ▸ hshared)
  · refine Or.inr (Or.inl ⟨hlt, later, past, t', rfl, hlen, ht', ho, hm, hcarry, ?_⟩)
    unfold Loan.isThroughOldValue at hthrough ⊢
    rw [hxh, hplace] at hthrough
    exact hthrough

omit hr hlive in
/-- Two tokens whose loans were made in the same step: the statement made one after the other. -/
theorem shared_or_through_of_eq (heq : t.moment = u.moment) (hlt : t.origin < u.origin) :
    (a.kind = .shared ∧ b.kind = .shared) ∨ f.ThroughHolder types ps t u a b := by
  obtain ⟨l, hl, hlu, later, past, hps, hlen⟩ := hu.made_at
  obtain ⟨k, hk, hkt, later', past', hps', hlen'⟩ := ht.made_at
  cases issued_unique hl hb (((issued_origin hl).symm.trans hlu).trans hub.symm)
  cases issued_unique hk ha (((issued_origin hk).symm.trans hkt).trans hta.symm)
  -- the same number of points was passed before both
  have hpoint : a.issuedAt = b.issuedAt := by
    have htails := List.append_inj_right' (hps'.symm.trans hps) (by
      rw [List.length_cons, List.length_cons, hlen, hlen', heq])
    exact (List.cons.inj htails).1
  have hid : a.id < b.id := by
    rw [hta, hub]
    exact hlt
  have hkl : a.origin ≠ b.origin := by
    rw [hkt, hlu]
    exact hne
  rcases shared_or_through ((Function.not_excluded_of_ok hf hok hb).2 a ha hpoint hid) hkl hover with
    hshared | hthrough
  · exact Or.inl hshared
  · exact Or.inr (Or.inr ⟨heq, hid, hthrough⟩)

end Tokens

/-! ## 2. Any two tokens -/

/-- **With a good verdict, references of different borrows exclude each other.** Along every route,
    if two tokens of different loans are held by live roots and the places of the loans overlap, both
    loans are shared, or the earlier token led through its holder when the later loan was made. -/
theorem tokens_exclusive {d : Draft} {f : Function} {types : TypeTable}
    (hv : d.validate types = .ok f) {s : Settings} (hok : (f.check types s).ok = true) {p : Point}
    {ps : List Point} (hr : f.Route p ps) {t u : Token} (ht : f.Holds types ps t)
    (hu : f.Holds types ps u) (hlt : t.holder ∈ (f.analyse types s.maxVisits).live.liveBefore p)
    (hlu : u.holder ∈ (f.analyse types s.maxVisits).live.liveBefore p) (hne : t.origin ≠ u.origin) :
    ∃ a b, (f.analyse types s.maxVisits).loans.loans[t.origin]? = some a ∧
      (f.analyse types s.maxVisits).loans.loans[u.origin]? = some b ∧
      (a.place.overlaps b.place = true → (a.kind = .shared ∧ b.kind = .shared) ∨
        f.ThroughHolder types ps t u a b ∨ f.ThroughHolder types ps u t b a) := by
  have hf := Draft.wellFormed_of_validate hv
  have htable := analyse_table hf types s.maxVisits
  obtain ⟨a, ha, hat, _⟩ := ht.made_at
  obtain ⟨b, hb, hbu, _⟩ := hu.made_at
  have hta : a.id = t.origin := (issued_origin ha).symm.trans hat
  have hub : b.id = u.origin := (issued_origin hb).symm.trans hbu
  refine ⟨a, b, ?_, ?_, fun hover => ?_⟩
  · exact hta ▸ htable.get_of_mem (htable.grown.subset ha)
  · exact hub ▸ htable.get_of_mem (htable.grown.subset hb)
  have hover' : b.place.overlaps a.place = true := Place.overlaps_comm a.place b.place ▸ hover
  rcases Nat.lt_trichotomy t.moment u.moment with hm | hm | hm
  · exact (shared_or_through_of_lt hf hok hr ht hu hlt ha hta hb hub hne hover hm).imp id Or.inl
  · rcases Nat.lt_or_gt_of_ne hne with ho | ho
    · exact (shared_or_through_of_eq hf hok ht hu ha hta hb hub hne hover hm ho).imp id Or.inl
    · exact (shared_or_through_of_eq hf hok hu ht hb hub ha hta hne.symm hover' hm.symm ho).imp
        And.symm Or.inr
  · exact (shared_or_through_of_lt hf hok hr hu ht hlu hb hub ha hta hne.symm hover' hm).imp
      And.symm Or.inr

/-- The types of the example below. -/
def descendTypes : TypeTable where
  defs := [⟨"Node", .owned⟩, ⟨"&mut Node", .ref true 1⟩, ⟨"Int", .scalar⟩]

/-- The place one node further on. -/
def nextNode : Place := ⟨⟨.param, "r"⟩, [.deref, .field "next"]⟩

/-- A reference goes down a list two nodes, each time replaced by one that was made through it. -/
def descend : Function where
  name := "descend"
  params := [⟨⟨.param, "r"⟩, []⟩]
  result := ⟨⟨.result, "_ret"⟩, []⟩
  locals := [("r", ⟨⟨.param, "r"⟩, some 2⟩), ("_ret", ⟨⟨.result, "_ret"⟩, some 3⟩)]
  blocks := [
    ⟨[.borrow ⟨⟨.param, "r"⟩, []⟩ nextNode .unique, .borrow ⟨⟨.param, "r"⟩, []⟩ nextNode .unique,
      .eval (.call "use" [.copy ⟨⟨.param, "r"⟩, []⟩])], .ret⟩]

/-- The loan of the borrow at a position of `descend`. -/
def descendLoan (i : Nat) : Loan := ⟨i, nextNode, .unique, ⟨0, i⟩, some "r", i⟩

theorem descend_route : descend.Route ⟨0, 2⟩ [⟨0, 1⟩, ⟨0, 0⟩] :=
  .step (.step .start (.next (by decide))) (.next (by decide))

theorem descend_first : descend.Holds descendTypes [⟨0, 1⟩, ⟨0, 0⟩] ⟨⟨0, ⟨0, 1⟩, "r"⟩, 0⟩ := by
  have hmade : descend.Holds descendTypes [⟨0, 0⟩] ⟨⟨0, ⟨0, 0⟩, "r"⟩, 0⟩ :=
    .made (l := descendLoan 0) (by decide +kernel) rfl rfl
  refine .handed (s := .borrow ⟨⟨.param, "r"⟩, []⟩ nextNode .unique) hmade rfl ⟨rfl, ?_, rfl⟩
  decide +kernel

theorem descend_second : descend.Holds descendTypes [⟨0, 1⟩, ⟨0, 0⟩] ⟨⟨1, ⟨0, 1⟩, "r"⟩, 1⟩ :=
  .made (l := descendLoan 1) (by decide +kernel) rfl rfl

/-- Both references are in use through `r` at the end, are exclusive and overlap: the first led
    through `r` when the second was made. -/
theorem tokens_exclusive_descend :
    descend.draft.validate descendTypes = .ok descend ∧ (descend.check descendTypes {}).ok = true ∧
      descend.Route ⟨0, 2⟩ [⟨0, 1⟩, ⟨0, 0⟩] ∧
      descend.Holds descendTypes [⟨0, 1⟩, ⟨0, 0⟩] ⟨⟨0, ⟨0, 1⟩, "r"⟩, 0⟩ ∧
      descend.Holds descendTypes [⟨0, 1⟩, ⟨0, 0⟩] ⟨⟨1, ⟨0, 1⟩, "r"⟩, 1⟩ ∧
      "r" ∈ (descend.analyse descendTypes 10000).live.liveBefore ⟨0, 2⟩ ∧
      (descendLoan 0).place.overlaps (descendLoan 1).place = true ∧
      (descend.ThroughHolder descendTypes [⟨0, 1⟩, ⟨0, 0⟩] ⟨⟨0, ⟨0, 1⟩, "r"⟩, 0⟩
          ⟨⟨1, ⟨0, 1⟩, "r"⟩, 1⟩ (descendLoan 0) (descendLoan 1) ∨
        descend.ThroughHolder descendTypes [⟨0, 1⟩, ⟨0, 0⟩] ⟨⟨1, ⟨0, 1⟩, "r"⟩, 1⟩
          ⟨⟨0, ⟨0, 1⟩, "r"⟩, 0⟩ (descendLoan 1) (descendLoan 0)) := by
  have hok : (descend.check descendTypes {}).ok = true := by decide +kernel
  have hlive : "r" ∈ (descend.analyse descendTypes 10000).live.liveBefore ⟨0, 2⟩ := by decide +kernel
  have hloans : (descend.analyse descendTypes 10000).loans.loans[0]? = some (descendLoan 0) ∧
      (descend.analyse descendTypes 10000).loans.loans[1]? = some (descendLoan 1) := by
    decide +kernel
  have hover : (descendLoan 0).place.overlaps (descendLoan 1).place = true := by decide
  refine ⟨rfl, hok, descend_route, descend_first, descend_second, hlive, hover, ?_⟩
  obtain ⟨a, b, ha, hb, hboth⟩ := tokens_exclusive (d := descend.draft) (f := descend) rfl hok
    descend_route descend_first descend_second hlive hlive (by decide)
  cases ha.symm.trans hloans.1
  cases hb.symm.trans hloans.2
  rcases hboth hover with ⟨hshared, _⟩ | hthrough
  · cases hshared
  · exact hthrough

end Ownership
