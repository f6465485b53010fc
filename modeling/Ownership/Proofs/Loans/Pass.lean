import Ownership.Proofs.Liveness.Exact
import Ownership.Proofs.Loans.Flow

/-!
# The loan pass over references

The pass joins sets of loan numbers while the table behind them grows. Read as references, a visit is
a visit of a forward pass, and the rows written at the end stand for what the rule collects along
routes.

* `Function.LoanVisit`: what a visit does;
* `LoanSets.LoansListed`, `loansPass`: a visit, as a visit of a forward pass over references;
* `replayLoans_spec`: the rows written at the end, and the table they are read with;
* `reaching_collect`: the loans that reach a point when the pass converged;
* `exists_activeBefore`: the loans in use at a point, as references.
-/

namespace Ownership

open Std (ExtTreeMap ExtTreeSet)

variable {f : Function} {types : TypeTable} {live : LiveFacts}

/-! ## 1. Visits -/

/-- The loans before and behind blocks, as references. -/
def Function.LoanSets.insHolds (s : Function.LoanSets) (b : Nat) : Option (Set Hold) :=
  (s.ins.get? b).map (readLoans s.table)

def Function.LoanSets.outsHolds (s : Function.LoanSets) (b : Nat) : Option (Set Hold) :=
  (s.outs.get? b).map (readLoans s.table)

/-- The table lists the loans that statements make and those derived from them, and the sets before and
    behind blocks have loans of the table only. -/
structure Function.LoanSets.LoansListed (issued : List Loan) (s : Function.LoanSets) : Prop where
  table : LoanTable issued s.table
  ins : ∀ b ids, s.ins.get? b = some ids → Listed s.table ids
  outs : ∀ b ids, s.outs.get? b = some ids → Listed s.table ids

namespace Function

/-- The loans before a block, from those behind its predecessors. -/
def loansInto (f : Function) (s : LoanSets) (b : Nat) : LoanIds :=
  (f.graph.livePreds b).foldl (fun ids p => ids ∪ s.outs.getD p ∅) ∅

theorem mem_loansInto {s : LoanSets} {b i : Nat} :
    i ∈ f.loansInto s b ↔ ∃ p ∈ f.graph.livePreds b, ∃ ids, s.outs.get? p = some ids ∧ i ∈ ids := by
  rw [loansInto, mem_foldl_union]
  simp only [ExtTreeSet.not_mem_empty, false_or]
  refine exists_congr fun p => and_congr_right fun _ => ?_
  rw [ExtTreeMap.getD_eq_getD_getElem?]
  show i ∈ (s.outs.get? p).getD ∅ ↔ _
  cases s.outs.get? p with
  | none => simp
  | some ids => simp

theorem loansInto_listed {issued : List Loan} {s : LoanSets} (hs : s.LoansListed issued) (b : Nat) :
    Listed s.table (f.loansInto s b) := by
  intro i hi
  obtain ⟨p, _, ids, hids, hi⟩ := mem_loansInto.mp hi
  exact hs.outs p ids hids i hi

theorem readLoans_into (s : LoanSets) (b : Nat) :
    readLoans s.table (f.loansInto s b) = f.joined ∅ s.outsHolds b := by
  ext x
  constructor
  · intro h
    obtain ⟨i, hi, l, hl, hx⟩ := h
    obtain ⟨p, hp, ids, hids, hi⟩ := mem_loansInto.mp hi
    exact Or.inr ⟨p, hp, _, congrArg _ hids, i, hi, l, hl, hx⟩
  · intro h
    rcases h with ⟨_, hx⟩ | ⟨p, hp, A, hA, hx⟩
    · exact absurd hx (Set.notMem_empty x)
    · obtain ⟨ids, hids, rfl⟩ := Option.map_eq_some_iff.mp hA
      obtain ⟨i, hi, l, hl, hx⟩ := hx
      exact ⟨i, mem_loansInto.mpr ⟨p, hp, ids, hids, hi⟩, l, hl, hx⟩

/-- What a visit of the block does: it computes a table and the loans behind the block, keeps both, and
    wakes the successors unless the loans behind the block are as they were. -/
structure LoanVisit (f : Function) (types : TypeTable) (live : LiveFacts) (b : Nat) (s : LoanSets)
    (table : List Loan) (out : LoanIds) : Prop where
  sound : LoanTable (f.issueLoans types live.tracked f.graph) table
  grown : s.table <+: table
  listed : Listed table out
  read : readLoans table out =
    f.throughBlock (f.holdRule types live) b (f.joined ∅ s.outsHolds b)
  table_eq : (f.visitLoans types live f.graph b s).1.table = table
  ins_eq : (f.visitLoans types live f.graph b s).1.ins = s.ins.insert b (f.loansInto s b)
  outs_eq : ∀ c, (f.visitLoans types live f.graph b s).1.outs.get? c =
    if c = b then some out else s.outs.get? c
  woken : (f.visitLoans types live f.graph b s).2 = f.graph.succsOf b ∨
    (f.visitLoans types live f.graph b s).2 = [] ∧ s.outs.get? b = some out

/-- What a visit leaves, from what it computes for its block. -/
theorem visitLoans_eq {b : Nat} {s : LoanSets} {table : List Loan} {out : LoanIds}
    {rows : List (Point × LoanPoint)}
    (he : f.loanBlock types live b s.table (f.loansInto s b) = (table, out, rows)) :
    f.visitLoans types live f.graph b s =
      if s.outs.get? b = some out then (⟨table, s.ins.insert b (f.loansInto s b), s.outs⟩, [])
      else (⟨table, s.ins.insert b (f.loansInto s b), s.outs.insert b out⟩, f.graph.succsOf b) := by
  have hblock : f.visitLoans types live f.graph b s =
      let r := f.loanBlock types live b s.table (f.loansInto s b)
      if s.outs.get? b = some r.2.1 then (⟨r.1, s.ins.insert b (f.loansInto s b), s.outs⟩, [])
      else (⟨r.1, s.ins.insert b (f.loansInto s b), s.outs.insert b r.2.1⟩, f.graph.succsOf b) := rfl
  rw [hblock, he]

theorem visitLoans_table (b : Nat) (s : LoanSets) : (f.visitLoans types live f.graph b s).1.table =
    (f.loanBlock types live b s.table (f.loansInto s b)).1 := by
  rw [visitLoans_eq rfl]
  split_ifs <;> rfl

theorem visitLoans_outs (b c : Nat) (s : LoanSets) :
    (f.visitLoans types live f.graph b s).1.outs.get? c =
      if c = b then some (f.loanBlock types live b s.table (f.loansInto s b)).2.1
      else s.outs.get? c := by
  rw [visitLoans_eq rfl]
  split_ifs with h hc hc
  · rw [hc]
    exact h
  · rfl
  · rw [hc]
    exact ExtTreeMap.getElem?_insert_self
  · exact getElem?_insert_ne hc

theorem exists_loanVisit {s : LoanSets} (hs : s.LoansListed (f.issueLoans types live.tracked f.graph))
    (b : Nat) : ∃ table out, f.LoanVisit types live b s table out := by
  obtain ⟨table, out, rows, he⟩ : ∃ table out rows,
    f.loanBlock types live b s.table (f.loansInto s b) = (table, out, rows) := ⟨_, _, _, rfl⟩
  obtain ⟨htable, hpre, hlisted, hread, _⟩ := loanBlock_spec hs.table (loansInto_listed hs b) he
  rw [readLoans_into] at hread
  refine ⟨table, out, htable, hpre, hlisted, hread, ?_, ?_, fun c => ?_, ?_⟩
  · rw [visitLoans_table, he]
  · rw [visitLoans_eq he]
    split_ifs <;> rfl
  · rw [visitLoans_outs, he]
  · rw [visitLoans_eq he]
    split_ifs with h
    · exact Or.inr ⟨rfl, h⟩
    · exact Or.inl rfl

/-- A visit keeps every set of loans listed. -/
theorem visitLoans_loansListed {s : LoanSets} (hs : s.LoansListed (f.issueLoans types live.tracked f.graph))
    (b : Nat) :
    (f.visitLoans types live f.graph b s).1.LoansListed (f.issueLoans types live.tracked f.graph) := by
  obtain ⟨table, out, hv⟩ := exists_loanVisit hs b
  refine ⟨hv.table_eq ▸ hv.sound, fun c ids hc => ?_, fun c ids hc => ?_⟩
  · rw [hv.ins_eq] at hc
    rw [hv.table_eq]
    by_cases e : c = b
    · subst e
      cases hc.symm.trans ExtTreeMap.getElem?_insert_self
      exact (loansInto_listed hs c).mono hv.grown
    · exact (hs.ins c ids ((getElem?_insert_ne e).symm.trans hc)).mono hv.grown
  · rw [hv.outs_eq c] at hc
    rw [hv.table_eq]
    split_ifs at hc
    · cases hc
      exact hv.listed
    · exact (hs.outs c ids hc).mono hv.grown

/-- A set of loans listed before a visit is read the same way after it. -/
theorem LoanVisit.map_read {b : Nat} {s : LoanSets} {table : List Loan} {out : LoanIds}
    (hv : f.LoanVisit types live b s table out) {o : Option LoanIds}
    (ho : ∀ ids, o = some ids → Listed s.table ids) :
    o.map (readLoans table) = o.map (readLoans s.table) := by
  cases o with
  | none => rfl
  | some ids => exact congrArg some (readLoans_of_grown (ho ids rfl) hv.grown)

end Function

/-! ## 2. The pass -/

/-- **A visit is a visit of a forward pass over references.** -/
theorem loansPass : ForwardPass f (f.holdRule types live) ∅
    (Function.LoanSets.LoansListed (f.issueLoans types live.tracked f.graph)) Function.LoanSets.insHolds
    Function.LoanSets.outsHolds (f.visitLoans types live f.graph) where
  additive p := Function.holdRule_additive p
  good s b hs _ _ := Function.visitLoans_loansListed hs b
  before s b hs _ _ := by
    obtain ⟨table, out, hv⟩ := Function.exists_loanVisit hs b
    rw [Function.LoanSets.insHolds, hv.table_eq, hv.ins_eq, ← Function.readLoans_into,
      ← readLoans_of_grown (Function.loansInto_listed hs b) hv.grown]
    exact congrArg _ ExtTreeMap.getElem?_insert_self
  behind s b hs _ _ := by
    obtain ⟨table, out, hv⟩ := Function.exists_loanVisit hs b
    rw [Function.LoanSets.outsHolds, hv.table_eq, hv.outs_eq, if_pos rfl, Option.map_some, hv.read]
  others s b hs _ _ c hc := by
    obtain ⟨table, out, hv⟩ := Function.exists_loanVisit hs b
    refine ⟨?_, ?_⟩
    · rw [Function.LoanSets.insHolds, hv.table_eq, hv.ins_eq]
      exact (congrArg _ (getElem?_insert_ne hc)).trans (hv.map_read (hs.ins c))
    · rw [Function.LoanSets.outsHolds, hv.table_eq, hv.outs_eq, if_neg hc]
      exact hv.map_read (hs.outs c)
  woken s b hs _ _ := by
    obtain ⟨table, out, hv⟩ := Function.exists_loanVisit hs b
    refine hv.woken.imp id fun ⟨hw, hsame⟩ => ⟨hw, ?_⟩
    rw [Function.LoanSets.outsHolds, Function.LoanSets.outsHolds, hv.table_eq, hv.outs_eq, if_pos rfl,
      ← hsame]
    exact hv.map_read (hs.outs b)

/-! ## 3. What is written down -/

namespace Function

variable {cap : Nat}

/-- The points that are written down for a list of blocks. -/
def visitedPoints (f : Function) (ins : ExtTreeMap Nat LoanIds) (bs : List Nat) : List Point :=
  bs.flatMap fun b => if (ins.get? b).isSome then f.pointsOf b else []

/-- The rows written for a list of blocks, from a table that has grown since the blocks were visited. -/
theorem replayLoans_spec {ins : ExtTreeMap Nat LoanIds} {table₀ : List Loan}
    (hins : ∀ b ids, ins.get? b = some ids → Listed table₀ ids) (bs : List Nat) :
    ∀ {table table' : List Loan} {rows : List (Point × LoanPoint)}, table₀ <+: table →
      LoanTable (f.issueLoans types live.tracked f.graph) table →
      f.replayLoans types live ins bs table = (table', rows) →
      LoanTable (f.issueLoans types live.tracked f.graph) table' ∧ table <+: table' ∧
        rows.map Prod.fst = f.visitedPoints ins bs ∧
        ∀ r ∈ rows, ∃ ids, ins.get? r.1.block = some ids ∧
          readLoans table' r.2.reaching =
            through (f.holdRule types live) r.1.block r.1.stmt (readLoans table₀ ids) := by
  induction bs with
  | nil =>
    intro table table' rows _ h he
    cases he
    exact ⟨h, List.prefix_rfl, rfl, fun r hr => absurd hr List.not_mem_nil⟩
  | cons b bs ih =>
    intro table table' rows hpre₀ h he
    unfold replayLoans at he
    cases hb : ins.get? b with
    | none =>
      rw [hb] at he
      obtain ⟨hlast, hpre, hkeys, hrows⟩ := ih hpre₀ h he
      refine ⟨hlast, hpre, ?_, hrows⟩
      rw [hkeys, visitedPoints, visitedPoints, List.flatMap_cons, hb]
      rfl
    | some ids =>
      obtain ⟨mid, out, here, hblock⟩ : ∃ mid out here,
        f.loanBlock types live b table ids = (mid, out, here) := ⟨_, _, _, rfl⟩
      obtain ⟨last, more, hrest⟩ : ∃ last more,
        f.replayLoans types live ins bs mid = (last, more) := ⟨_, _, rfl⟩
      rw [hb] at he
      simp only [hblock, hrest] at he
      cases he
      have hlisted := (hins b ids hb).mono hpre₀
      obtain ⟨hmid, hpre, _, _, hkeys, hfollow⟩ := loanBlock_spec h hlisted hblock
      obtain ⟨hlast, hpre', hkeys', hrows⟩ := ih (hpre₀.trans hpre) hmid hrest
      refine ⟨hlast, hpre.trans hpre', ?_, fun r hr => ?_⟩
      · rw [List.map_append, hkeys, hkeys', visitedPoints, visitedPoints, List.flatMap_cons, hb]
        rfl
      · rcases List.mem_append.mp hr with hr | hr
        · have hpoint : r.1 ∈ f.pointsOf b := hkeys ▸ List.mem_map_of_mem hr
          have hrb : r.1.block = b := (mem_pointsOf.mp hpoint).1
          refine ⟨ids, hrb ▸ hb, ?_⟩
          rw [hrb, ← readLoans_of_grown (hins b ids hb) hpre₀]
          exact (hfollow.mono hpre' r hr).2
        · exact hrows r hr

theorem nodup_visitedPoints (hf : f.WellFormed) (ins : ExtTreeMap Nat LoanIds) :
    (f.visitedPoints ins f.graph.order).Nodup := by
  have hrows : ((f.graph.order.flatMap fun b =>
      if (ins.get? b).isSome then f.pointsOf b else []).map fun p : Point => p).Nodup := by
    refine nodup_rows hf.graph_sound.nodup (fun b => ?_) (fun b r hr => ?_)
    · rw [List.map_id']
      split_ifs
      · exact nodup_pointsOf b
      · exact List.nodup_nil
    · split_ifs at hr
      · exact (mem_pointsOf.mp hr).1
      · cases hr
  rw [List.map_id'] at hrows
  exact hrows

/-- At first no loan reaches anything. -/
def firstLoans (f : Function) (types : TypeTable) (live : LiveFacts) : LoanSets :=
  ⟨f.issueLoans types live.tracked f.graph, (∅ : ExtTreeMap Nat LoanIds).insert 0 ∅, ∅⟩

/-- The loans when the worklist stops. -/
def lastLoans (f : Function) (types : TypeTable) (cap : Nat) (live : LiveFacts) : LoanSets :=
  (Worklist.run f.graph.order (f.visitLoans types live f.graph) cap [0] (f.firstLoans types live) 0).state

/-- The table and the rows from which the facts are taken. -/
def loanRows (f : Function) (types : TypeTable) (cap : Nat) (live : LiveFacts) :
    List Loan × List (Point × LoanPoint) :=
  f.replayLoans types live (f.lastLoans types cap live).ins f.graph.order
    (f.lastLoans types cap live).table

theorem trackLoans_loans :
    (f.trackLoans f.graph types cap live).loans = (f.loanRows types cap live).1 := rfl

theorem trackLoans_points : (f.trackLoans f.graph types cap live).points =
    writeRows Prod.fst Prod.snd (f.loanRows types cap live).2 ∅ := rfl

theorem firstLoans_loansListed :
    (f.firstLoans types live).LoansListed (f.issueLoans types live.tracked f.graph) := by
  refine ⟨issueLoans_table _ _, fun b ids hb => ?_, fun b ids hb => ?_⟩
  · by_cases e : b = 0
    · subst e
      cases hb.symm.trans ExtTreeMap.getElem?_insert_self
      exact fun i hi => absurd hi ExtTreeSet.not_mem_empty
    · cases hb.symm.trans ((getElem?_insert_ne e).trans ExtTreeMap.getElem?_empty)
  · cases hb.symm.trans ExtTreeMap.getElem?_empty

theorem startLoans (hf : f.WellFormed) :
    ForwardPass.Invariant f (f.holdRule types live) ∅
      (LoanSets.LoansListed (f.issueLoans types live.tracked f.graph)) LoanSets.insHolds LoanSets.outsHolds [0]
      (f.firstLoans types live) := by
  refine .start hf firstLoans_loansListed (fun b => ?_) fun b A hA => ?_
  · exact congrArg (Option.map (readLoans _)) ExtTreeMap.getElem?_empty
  · obtain ⟨ids, hids, rfl⟩ := Option.map_eq_some_iff.mp hA
    by_cases e : b = 0
    · subst e
      cases hids.symm.trans ExtTreeMap.getElem?_insert_self
      refine ⟨rfl, Set.eq_empty_iff_forall_notMem.mpr ?_⟩
      intro x h
      obtain ⟨i, hi, _⟩ := h
      exact ExtTreeSet.not_mem_empty hi
    · cases hids.symm.trans ((getElem?_insert_ne e).trans ExtTreeMap.getElem?_empty)

/-! ## 4. The facts by routes -/

theorem lastLoans_loansListed (hf : f.WellFormed) :
    (f.lastLoans types cap live).LoansListed (f.issueLoans types live.tracked f.graph) :=
  loansPass.good_final hf (startLoans hf)

/-- The table and the rows that the facts come with. -/
theorem loanRows_spec (hf : f.WellFormed) (types : TypeTable) (cap : Nat) (live : LiveFacts) :
    LoanTable (f.issueLoans types live.tracked f.graph) (f.loanRows types cap live).1 ∧
      (f.loanRows types cap live).2.map Prod.fst =
        f.visitedPoints (f.lastLoans types cap live).ins f.graph.order ∧
      ∀ r ∈ (f.loanRows types cap live).2,
        ∃ ids, (f.lastLoans types cap live).ins.get? r.1.block = some ids ∧
          readLoans (f.loanRows types cap live).1 r.2.reaching =
            through (f.holdRule types live) r.1.block r.1.stmt
              (readLoans (f.lastLoans types cap live).table ids) := by
  obtain ⟨htable, _, hkeys, hrows⟩ := replayLoans_spec (lastLoans_loansListed hf).ins f.graph.order
    List.prefix_rfl (lastLoans_loansListed hf).table (rfl : _ = f.loanRows types cap live)
  exact ⟨htable, hkeys, hrows⟩

theorem loans_table (hf : f.WellFormed) : LoanTable (f.issueLoans types live.tracked f.graph)
    (f.trackLoans f.graph types cap live).loans :=
  (loanRows_spec hf types cap live).1

/-- **The loans that reach a point when the pass converged** stand for what the rule collects along
    the routes to it. -/
theorem reaching_collect (hf : f.WellFormed)
    (hc : (f.trackLoans f.graph types cap live).converged = true) {p : Point} (hp : f.Reaches p) :
    readLoans (f.trackLoans f.graph types cap live).loans
        ((f.trackLoans f.graph types cap live).reaching p) =
      f.collect (f.holdRule types live) ∅ p := by
  obtain ⟨A, hA, hcol⟩ := loansPass.eq_collect hf (startLoans hf) hc hp
  obtain ⟨ids, hids, rfl⟩ := Option.map_eq_some_iff.mp hA
  have hids : (f.lastLoans types cap live).ins.get? p.block = some ids := hids
  obtain ⟨_, hkeys, hrows⟩ := loanRows_spec hf types cap live
  obtain ⟨hord, hstmt⟩ := hp.choose_spec.mem_order hf
  have hmem : p ∈ (f.loanRows types cap live).2.map Prod.fst := by
    rw [hkeys]
    refine List.mem_flatMap.mpr ⟨p.block, hord, ?_⟩
    rw [hids]
    exact mem_pointsOf.mpr ⟨rfl, hstmt⟩
  obtain ⟨⟨q, row⟩, hrow, rfl⟩ := List.mem_map.mp hmem
  have hnodup : ((f.loanRows types cap live).2.map Prod.fst).Nodup :=
    hkeys ▸ nodup_visitedPoints hf _
  have hget : (f.trackLoans f.graph types cap live).points.get? q = some row := by
    rw [trackLoans_points]
    exact getElem?_rows Prod.fst Prod.snd hnodup hrow
  obtain ⟨ids', hids', hread⟩ := hrows _ hrow
  cases hids.symm.trans hids'
  rw [LoanFacts.reaching, hget, trackLoans_loans]
  exact hread.trans hcol

end Function

namespace LoanFacts

variable {facts : LoanFacts} {p : Point}

theorem mem_heldIn {roots : Names} {x : Loan} : x ∈ facts.heldIn p roots ↔
    (∃ i ∈ facts.reaching p, facts.loans[i]? = some x) ∧ x.isHeldIn roots = true := by
  rw [heldIn, List.mem_filter, mem_select]

/-- The loans in use at a point, as references. -/
theorem exists_activeBefore {y : Hold} : (∃ x ∈ facts.activeBefore p, x.hold? = some y) ↔
    y ∈ readLoans facts.loans (facts.reaching p) ∧ y.holder ∈ facts.live.liveBefore p := by
  simp only [activeBefore, mem_heldIn]
  constructor
  · intro h
    obtain ⟨x, ⟨⟨i, hi, hx⟩, hheld⟩, hy⟩ := h
    exact ⟨⟨i, hi, x, hx, hy⟩, (Loan.isHeldIn_iff hy _).mp hheld⟩
  · intro h
    obtain ⟨⟨i, hi, x, hx, hy⟩, hlive⟩ := h
    exact ⟨x, ⟨⟨i, hi, hx⟩, (Loan.isHeldIn_iff hy _).mpr hlive⟩, hy⟩

end LoanFacts

end Ownership
