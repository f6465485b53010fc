import Ownership.Proofs.Loans.Pass

/-!
# References along a route

Along one route every reference can be followed: it is made by a borrow, handed on from root to root,
and lost when the root that holds it is written as a whole or dropped. Loans stand for these tokens
as long as the holder is live:

* `Token`, `Function.Holds`: the tokens that are held behind the points of a route;
* `Function.Holds.along`: a token with a live holder is kept by the rule of the pass;
* `exists_holds`: what the rule keeps is a token, unless a live root is dropped;
* `Function.Holds.made_at`, `Function.Holds.back`: where a token comes from.
-/

namespace Ownership

open Std (ExtTreeMap ExtTreeSet)

/-! ## 1. Tokens -/

/-- A reference on its way along a route: what the pass knows of it, and how many points had been
    passed when the loan that it goes back to was made. -/
structure Token extends Hold where
  moment : Nat
  deriving DecidableEq, Repr

/-- The statement ends what the root holds: it writes or drops all of it. -/
def Statement.Ends (s : Statement) (r : String) : Prop :=
  ∃ p, (s.dest? = some p ∨ s = .drop p) ∧ p.isWhole = true ∧ p.name = r

/-- The place that a statement writes or drops. -/
def Statement.ended? : Statement → Option Place
  | .drop p => some p
  | s => s.dest?

theorem Statement.ends_iff {s : Statement} {r : String} :
    s.Ends r ↔ ∃ p ∈ s.ended?, p.isWhole = true ∧ p.name = r := by
  refine exists_congr fun p => and_congr_left fun _ => ?_
  cases s <;> simp [ended?, dest?]

instance (s : Statement) (r : String) : Decidable (s.Ends r) :=
  decidable_of_iff _ Statement.ends_iff.symm

/-- The tokens held behind the points that a route passed, the latest first. -/
inductive Function.Holds (f : Function) (types : TypeTable) : List Point → Token → Prop where
  /-- The statement at `p` makes a loan for a holder. -/
  | made {p : Point} {ps : List Point} {l : Loan} {x : Hold}
      (hl : l ∈ f.issueLoans types (f.tracked types) f.graph) (hp : l.issuedAt = p)
      (hx : l.hold? = some x) : f.Holds types (p :: ps) ⟨x, ps.length⟩
  /-- The holder keeps it. -/
  | kept {p : Point} {ps : List Point} {t : Token} (h : f.Holds types ps t)
      (he : ∀ s, f.statementAt? p = some s → ¬ s.Ends t.holder) : f.Holds types (p :: ps) t
  /-- The statement at `p` hands it on to its destination. -/
  | handed {p : Point} {ps : List Point} {s : Statement} {t : Token} (h : f.Holds types ps t)
      (hs : f.statementAt? p = some s) (hflow : f.Flows types (f.tracked types) s t.holder) :
      f.Holds types (p :: ps) ⟨⟨t.origin, p, s.destName⟩, t.moment⟩

/-- A statement that does not end what the holder has leaves the token there. -/
theorem Function.Holds.over {f : Function} {types : TypeTable} {p : Point} {ps : List Point}
    {s : Statement} {t : Token} (h : f.Holds types ps t) (hs : f.statementAt? p = some s)
    (he : ¬ s.Ends t.holder) : f.Holds types (p :: ps) t := by
  refine .kept h fun s' hs' => ?_
  cases hs.symm.trans hs'
  exact he

/-! ## 2. Uses and definitions -/

theorem Statement.mem_killed {s : Statement} {r : String} :
    r ∈ s.killed ↔ ∃ p, s.dest? = some p ∧ p.isWhole = true ∧ p.name = r := by
  rw [killed, ExtTreeSet.mem_ofList, List.contains_iff_mem]
  simp only [List.mem_map, List.mem_filter, Option.mem_toList, and_assoc]

theorem Statement.ends_of_mem_killed {s : Statement} {r : String} (h : r ∈ s.killed) : s.Ends r := by
  obtain ⟨p, hp, hw⟩ := mem_killed.mp h
  exact ⟨p, Or.inl hp, hw⟩

theorem Statement.ends_of_mem_defs {tracked : Names} {s : Statement} {r : String}
    (h : r ∈ s.defs tracked) : s.Ends r := by
  have hend := (mem_ofList_filter.mp h).1
  simp only [List.mem_map, List.mem_filter, Option.mem_toList] at hend
  obtain ⟨p, ⟨hp, hw⟩, hr⟩ := hend
  refine ⟨p, ?_, hw, hr⟩
  cases s with
  | drop q => exact Or.inr (congrArg _ (Option.some.inj hp))
  | assign d v => exact Or.inl hp
  | borrow d q k => exact Or.inl hp
  | move d q => exact Or.inl hp
  | eval v => exact Or.inl hp

section

variable {f : Function} {types : TypeTable} {tracked : Names}

theorem mem_uses_of_read {s : Statement} {p : Place} (hp : p ∈ s.reads) (ht : p.name ∈ tracked) :
    p.name ∈ s.uses tracked :=
  mem_ofList_filter.mpr ⟨List.mem_append_left _
    (List.mem_flatMap.mpr ⟨p, hp, List.mem_cons_self⟩), ht⟩

theorem Function.tracked_of_handsOn {p : Place} (h : f.handsOn types tracked p = true) :
    p.name ∈ tracked := by
  unfold handsOn at h
  rw [Bool.and_eq_true] at h
  exact h.1

/-- A root whose references are handed on is used. -/
theorem Function.Flows.uses {s : Statement} {r : String} (h : f.Flows types tracked s r) :
    r ∈ s.uses tracked := by
  cases s with
  | borrow d p k =>
    obtain ⟨_, ht, rfl⟩ := h
    exact mem_uses_of_read List.mem_cons_self ht
  | assign d v =>
    obtain ⟨_, p, hp, ht, rfl⟩ := h
    refine mem_uses_of_read ?_ (Function.tracked_of_handsOn ht)
    show p ∈ v.cloned?.toList ++ v.operands.filterMap Operand.place?
    rcases hp with hp | hp | hp
    · exact List.mem_append_left _ (Option.mem_toList.mpr hp)
    · exact List.mem_append_right _ (List.mem_filterMap.mpr ⟨_, hp, rfl⟩)
    · exact List.mem_append_right _ (List.mem_filterMap.mpr ⟨_, hp, rfl⟩)
  | move d p =>
    obtain ⟨ht, rfl⟩ := h
    exact mem_uses_of_read List.mem_cons_self (Function.tracked_of_handsOn ht)
  | drop p => exact absurd h id
  | eval v => exact absurd h id

/-- The root that a loan is made for is the one that the statement writes. -/
theorem Function.exists_dest_of_borrows {s : Statement} {q : Place} {k : LoanKind} {r : String}
    (h : (q, k, some r) ∈ f.borrows types tracked s) : ∃ d, s.dest? = some d ∧ d.name = r := by
  cases s with
  | borrow d p k' =>
    cases List.mem_singleton.mp h
    exact ⟨d, rfl, rfl⟩
  | assign d v =>
    obtain ⟨row, _, he⟩ := List.mem_map.mp h
    have hholder : (if f.keepsRefs types tracked d then some d.name else none) = some r :=
      congrArg (fun x : Place × LoanKind × Option String => x.2.2) he
    split at hholder
    · exact ⟨d, rfl, Option.some.inj hholder⟩
    · cases hholder
  | eval v =>
    obtain ⟨row, _, he⟩ := List.mem_map.mp h
    cases he
  | move d p => cases h
  | drop p => cases h

/-- References are handed on to the root that the statement writes. -/
theorem Function.Flows.exists_dest {s : Statement} {r : String}
    (h : f.Flows types tracked s r) : ∃ d, s.dest? = some d ∧ d.name = s.destName := by
  cases s with
  | borrow d p k => exact ⟨d, rfl, rfl⟩
  | assign d v => exact ⟨d, rfl, rfl⟩
  | move d p => exact ⟨d, rfl, rfl⟩
  | drop p => exact absurd h id
  | eval v => exact absurd h id

/-- Loans are made by statements. -/
theorem Function.exists_statement_of_issued {l : Loan} {g : Graph}
    (hl : l ∈ f.issueLoans types tracked g) :
    ∃ s, f.statementAt? l.issuedAt = some s ∧ l.issuedAt.block ∈ g.reachable ∧
      (l.place, l.kind, l.holder) ∈ f.borrows types tracked s := by
  unfold issueLoans at hl
  obtain ⟨⟨⟨pt, q, k, h⟩, i⟩, hmem, rfl⟩ := List.mem_map.mp hl
  have hrow := List.mem_of_getElem? (List.mem_zipIdx_iff_getElem?.mp hmem)
  obtain ⟨b, hb, hrow⟩ := List.mem_flatMap.mp hrow
  obtain ⟨⟨s, pt'⟩, hs, hrow⟩ := List.mem_flatMap.mp hrow
  obtain ⟨row, hborrow, he⟩ := List.mem_map.mp hrow
  cases he
  obtain ⟨rfl, hat⟩ := Function.mem_statementsOf.mp hs
  exact ⟨s, hat, hb, hborrow⟩

/-- A loan is a borrow of the statement that stands where it was made. -/
theorem Function.mem_borrows_of_issued {l : Loan} {g : Graph} {s : Statement}
    (hl : l ∈ f.issueLoans types tracked g) (hs : f.statementAt? l.issuedAt = some s) :
    (l.place, l.kind, l.holder) ∈ f.borrows types tracked s := by
  obtain ⟨s', hs', _, hborrow⟩ := exists_statement_of_issued hl
  cases hs.symm.trans hs'
  exact hborrow

end

/-! ## 3. Tokens and the rule -/

section Rule

variable {f : Function} {types : TypeTable} {cap : Nat}

/-- The terminator stands where no statement does. -/
theorem Function.eq_exitOf {p : Point} (hp : p.stmt ≤ (f.block p.block).statements.length)
    (hs : f.statementAt? p = none) : p = f.exitOf p.block := by
  have hle : (f.block p.block).statements.length ≤ p.stmt := List.getElem?_eq_none_iff.mp hs
  exact congrArg (Point.mk p.block) (Nat.le_antisymm hp hle)

/-- Behind a statement the rule keeps what has a live holder and is made, handed on or left over. -/
theorem Function.mem_holdRule_statement {live : LiveFacts} {p : Point} {s : Statement}
    (hs : f.statementAt? p = some s) {A : Set Hold} {x : Hold} :
    x ∈ f.holdRule types live p A ↔
      (x.holder ∈ live.liveAfter p ∧
        ∃ l ∈ f.issueLoans types live.tracked f.graph, l.issuedAt = p ∧ l.hold? = some x) ∨
      ∃ y ∈ A, x.holder ∈ live.liveAfter p ∧ ((y = x ∧ y.holder ∉ s.killed) ∨
        (f.Flows types live.tracked s y.holder ∧ x = ⟨y.origin, p, s.destName⟩)) := by
  unfold holdRule
  rw [hs]
  exact Iff.rfl

/-- Behind a terminator that goes on, the rule keeps what has a live holder. -/
theorem Function.mem_holdRule_exit (hf : f.WellFormed) {p : Point} (hb : p.block ∈ f.graph.order)
    (hp : p.stmt ≤ (f.block p.block).statements.length) (hs : f.statementAt? p = none) {A : Set Hold}
    {x : Hold} :
    x ∈ f.holdRule types (f.trackLive f.graph types cap) p A ↔
      (f.block p.block).terminator ≠ .ret ∧ x ∈ A ∧
        x.holder ∈ (f.trackLive f.graph types cap).liveAfter p := by
  have hlive := Function.liveOut_eq hf types cap hb
  rw [← Function.eq_exitOf hp hs] at hlive
  unfold holdRule
  rw [hs, ← hlive]
  constructor
  · intro hex
    rcases hex with h | ⟨y, hy, hne, rfl, hl⟩
    · cases h
    · exact ⟨hne, hy, hl⟩
  · intro hex
    obtain ⟨hne, hx, hl⟩ := hex
    exact Or.inr ⟨x, hx, hne, rfl, hl⟩

section Back

variable (hf : f.WellFormed) (hc : (f.trackLive f.graph types cap).converged = true)

include hf

/-- A root that is live behind a point and not ended there is live before it. -/
theorem live_before_of_kept {q : Point} (hb : q.block ∈ f.graph.order)
    (hq : q.stmt ≤ (f.block q.block).statements.length) {r : String}
    (he : ∀ s, f.statementAt? q = some s → ¬ s.Ends r)
    (hafter : r ∈ (f.trackLive f.graph types cap).liveAfter q) :
    r ∈ (f.trackLive f.graph types cap).liveBefore q := by
  refine (Function.mem_liveBefore_step hf hb hq).mpr (Or.inr ⟨?_, hafter⟩)
  unfold Function.defsAt
  cases hs : f.statementAt? q with
  | some s => exact fun hd => he s hs (Statement.ends_of_mem_defs hd)
  | none => exact ExtTreeSet.not_mem_empty

/-- A root whose references are handed on is live before that. -/
theorem live_before_of_handed {q : Point} (hb : q.block ∈ f.graph.order)
    (hq : q.stmt ≤ (f.block q.block).statements.length) {s : Statement} {r : String}
    (hs : f.statementAt? q = some s) (hflow : f.Flows types (f.tracked types) s r) :
    r ∈ (f.trackLive f.graph types cap).liveBefore q := by
  refine (Function.mem_liveBefore_step hf hb hq).mpr (Or.inl ?_)
  unfold Function.usesAt
  rw [hs]
  exact hflow.uses

include hc

/-- What is live where a route leads is live behind the point it passed last. -/
theorem live_behind_last {p q : Point} {qs : List Point} {r : String} (hr : f.Route p (q :: qs))
    (hlive : r ∈ (f.trackLive f.graph types cap).liveBefore p) :
    f.Route q qs ∧ q.block ∈ f.graph.order ∧ q.stmt ≤ (f.block q.block).statements.length ∧
      f.Step q p ∧ r ∈ (f.trackLive f.graph types cap).liveAfter q := by
  cases hr with
  | step hr hs =>
    obtain ⟨hb, hq⟩ := hr.mem_order hf
    exact ⟨hr, hb, hq, hs, (mem_liveAfter hf hc hb hq).mpr ⟨p, hs, hlive⟩⟩

/-- **A token with a live holder is kept by the rule.** -/
theorem Function.Holds.along {ps : List Point} {t : Token} (h : f.Holds types ps t) {p : Point}
    (hr : f.Route p ps) (hlive : t.holder ∈ (f.trackLive f.graph types cap).liveBefore p) :
    t.toHold ∈ along (f.holdRule types (f.trackLive f.graph types cap)) ∅ ps := by
  induction h generalizing p with
  | made hl hp hx =>
    obtain ⟨_, _, _, _, hafter⟩ := live_behind_last hf hc hr hlive
    obtain ⟨s, hs, _⟩ := Function.exists_statement_of_issued hl
    rw [hp] at hs
    exact (Function.mem_holdRule_statement hs).mpr (Or.inl ⟨hafter, _, hl, hp, hx⟩)
  | @kept q ps t _ he ih =>
    obtain ⟨hr, hb, hq, hstep, hafter⟩ := live_behind_last hf hc hr hlive
    have hkept := ih hr (live_before_of_kept hf hb hq he hafter)
    cases hs : f.statementAt? q with
    | some s =>
      refine (Function.mem_holdRule_statement hs).mpr (Or.inr ⟨_, hkept, hafter, Or.inl ⟨rfl, ?_⟩⟩)
      exact fun hk => he s hs (Statement.ends_of_mem_killed hk)
    | none =>
      refine (Function.mem_holdRule_exit hf hb hq hs).mpr ⟨fun hret => ?_, hkept, hafter⟩
      -- a return has no successor
      rw [Function.eq_exitOf hq hs, Function.step_exit_iff, hret] at hstep
      obtain ⟨t, ht, _⟩ := hstep
      cases ht
  | @handed q ps s t _ hs hflow ih =>
    obtain ⟨hr, hb, hq, _, hafter⟩ := live_behind_last hf hc hr hlive
    have hsource := ih hr (live_before_of_handed hf hb hq hs hflow)
    exact (Function.mem_holdRule_statement hs).mpr (Or.inr ⟨_, hsource, hafter, Or.inr ⟨hflow, rfl⟩⟩)

end Back

/-- **What the rule keeps is a token**, if no statement drops a live root that holds one. -/
theorem exists_holds (hf : f.WellFormed)
    (hdrop : ∀ p ps t q, f.Route p ps → f.Holds types ps t → f.statementAt? p = some (.drop q) →
      q.isWhole = true → q.name = t.holder →
      t.holder ∉ (f.trackLive f.graph types cap).liveAfter p)
    {p : Point} {ps : List Point} (hr : f.Route p ps) {x : Hold}
    (hx : x ∈ along (f.holdRule types (f.trackLive f.graph types cap)) ∅ ps) :
    ∃ n, f.Holds types ps ⟨x, n⟩ := by
  induction hr generalizing x with
  | start => exact absurd hx (Set.notMem_empty x)
  | @step q p ps hr hstep ih =>
    obtain ⟨hb, hq⟩ := hr.mem_order hf
    cases hs : f.statementAt? q with
    | some s =>
      rcases (Function.mem_holdRule_statement hs).mp hx with
        ⟨_, l, hl, hp, hx⟩ | ⟨y, hy, hafter, ⟨rfl, hkill⟩ | ⟨hflow, rfl⟩⟩
      · exact ⟨_, .made hl hp hx⟩
      · obtain ⟨n, hn⟩ := ih hy
        refine ⟨n, .kept hn fun s' hs' hends => ?_⟩
        cases hs.symm.trans hs'
        obtain ⟨w, hw | rfl, hwhole, hname⟩ := hends
        · exact hkill (Statement.mem_killed.mpr ⟨w, hw, hwhole, hname⟩)
        · exact hdrop q ps _ w hr hn hs hwhole hname hafter
      · obtain ⟨n, hn⟩ := ih hy
        exact ⟨n, .handed hn hs hflow⟩
    | none =>
      obtain ⟨_, hy, _⟩ := (Function.mem_holdRule_exit hf hb hq hs).mp hx
      obtain ⟨n, hn⟩ := ih hy
      refine ⟨n, .kept hn fun s' hs' => ?_⟩
      rw [hs] at hs'
      cases hs'

end Rule

/-! ## 4. Where a token comes from -/

section Past

variable {f : Function} {types : TypeTable} {cap : Nat}

/-- Behind the point the root `r'` holds what `r` held before it. -/
def Function.PassesOn (f : Function) (types : TypeTable) (p : Point) (r r' : String) : Prop :=
  (r = r' ∧ ∀ s, f.statementAt? p = some s → ¬ s.Ends r) ∨
    ∃ s, f.statementAt? p = some s ∧ f.Flows types (f.tracked types) s r ∧ r' = s.destName

/-- Along the points, the latest first, what the one root holds comes to the other. -/
inductive Function.Carries (f : Function) (types : TypeTable) : List Point → String → String → Prop where
  | here {r : String} : f.Carries types [] r r
  | step {p : Point} {ps : List Point} {r r' r'' : String} (h : f.Carries types ps r r')
      (hp : f.PassesOn types p r' r'') : f.Carries types (p :: ps) r r''

/-- The loan that a token goes back to was made at its moment. -/
theorem Function.Holds.made_at {ps : List Point} {t : Token} (h : f.Holds types ps t) :
    ∃ l ∈ f.issueLoans types (f.tracked types) f.graph, l.origin = t.origin ∧
      ∃ later past, ps = later ++ l.issuedAt :: past ∧ past.length = t.moment := by
  induction h with
  | @made p ps l x hl hp hx => exact ⟨l, hl, (Loan.hold?_eq_some.mp hx).1, [], ps, hp ▸ rfl, rfl⟩
  | @kept p ps t _ _ ih =>
    obtain ⟨l, hl, ho, later, past, rfl, hlen⟩ := ih
    exact ⟨l, hl, ho, p :: later, past, rfl, hlen⟩
  | @handed p ps s t _ _ _ ih =>
    obtain ⟨l, hl, ho, later, past, rfl, hlen⟩ := ih
    exact ⟨l, hl, ho, p :: later, past, rfl, hlen⟩

theorem Function.Holds.moment_lt {ps : List Point} {t : Token} (h : f.Holds types ps t) :
    t.moment < ps.length := by
  obtain ⟨_, _, _, later, past, rfl, hlen⟩ := h.made_at
  rw [List.length_append, List.length_cons]
  omega

/-- One step back, a token that is not new was held by a live root. -/
theorem Function.Holds.step_back (hf : f.WellFormed)
    (hc : (f.trackLive f.graph types cap).converged = true) {p q : Point} {qs : List Point} {t : Token}
    (h : f.Holds types (q :: qs) t) (hm : t.moment < qs.length) (hr : f.Route p (q :: qs))
    (hlive : t.holder ∈ (f.trackLive f.graph types cap).liveBefore p) :
    ∃ t' : Token, f.Holds types qs t' ∧ t'.origin = t.origin ∧ t'.moment = t.moment ∧
      t'.holder ∈ (f.trackLive f.graph types cap).liveBefore q ∧
      f.PassesOn types q t'.holder t.holder := by
  obtain ⟨_, hb, hq, _, hafter⟩ := live_behind_last hf hc hr hlive
  cases h with
  | made hl hp hx => exact absurd hm (Nat.lt_irrefl _)
  | kept h he =>
    exact ⟨t, h, rfl, rfl, live_before_of_kept hf hb hq he hafter, Or.inl ⟨rfl, he⟩⟩
  | @handed _ _ s t h hs hflow =>
    exact ⟨t, h, rfl, rfl, live_before_of_handed hf hb hq hs hflow, Or.inr ⟨s, hs, hflow, rfl⟩⟩

/-- **At every point since its loan was made, a token with a live holder was held by a live root.** -/
theorem Function.Holds.back (hf : f.WellFormed)
    (hc : (f.trackLive f.graph types cap).converged = true) {q : Point} {later past : List Point} :
    ∀ {p : Point} {t : Token}, f.Holds types (later ++ q :: past) t → t.moment < past.length →
      f.Route p (later ++ q :: past) →
      t.holder ∈ (f.trackLive f.graph types cap).liveBefore p →
      ∃ t' : Token, f.Holds types past t' ∧ t'.origin = t.origin ∧ t'.moment = t.moment ∧
        t'.holder ∈ (f.trackLive f.graph types cap).liveBefore q ∧
        f.Carries types (later ++ [q]) t'.holder t.holder := by
  induction later with
  | nil =>
    intro p t h hm hr hlive
    obtain ⟨t', ht', ho, hmt, hlive', hpass⟩ := h.step_back hf hc hm hr hlive
    exact ⟨t', ht', ho, hmt, hlive', .step .here hpass⟩
  | cons c later ih =>
    intro p t h hm hr hlive
    have hlong : t.moment < (later ++ q :: past).length := by
      rw [List.length_append, List.length_cons]
      omega
    obtain ⟨t₁, h₁, ho₁, hm₁, hlive₁, hpass⟩ := h.step_back hf hc hlong hr hlive
    have hr₁ : f.Route c (later ++ q :: past) := (live_behind_last hf hc hr hlive).1
    obtain ⟨t', ht', ho, hmt, hlive', hcarry⟩ := ih h₁ (hm₁ ▸ hm) hr₁ hlive₁
    exact ⟨t', ht', ho.trans ho₁, hmt.trans hm₁, hlive', .step hcarry hpass⟩

end Past

end Ownership
