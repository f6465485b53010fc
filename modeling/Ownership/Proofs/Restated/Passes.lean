import Ownership.Proofs.DeadCode
import Ownership.Proofs.Loans.Sites

/-!
# A statement said as an assignment

Moving a place and borrowing a place can each be said in two ways: by a statement of their own, or by
an assignment whose value is a single operand. The two ways take different branches everywhere, so
what is read off them has to be compared reading by reading.

* `Function.Restates`: the assignment that says what a statement says;
* `Function.restate`: the function with another statement at one point; whatever is read off its
  statements one by one is the same (`map_statementsOf_restate`);
* `Function.SameParents`: the one reading on which the two ways may differ, what is handed on to the
  destination, makes no difference for the references that come to the point;
* `trackMoves_restate`, `trackLive_restate`, `trackLoans_restate`: the passes find out the same.
-/

namespace Ownership

open Std

/-! ## 1. Two ways to say it -/

/-- The second statement is the assignment that says what the first one says: it moves between places
    of one known type, or it borrows into a place of a known type that carries references. -/
inductive Function.Restates (f : Function) (types : TypeTable) : Statement → Statement → Prop where
  | move {d p : Place} {t : TypeId} (hd : f.placeType types d = some t)
      (hp : f.placeType types p = some t) :
      f.Restates types (.move d p) (.assign d (.use (.move p)))
  | borrow {d p : Place} {k : LoanKind} {t : TypeId} (hd : f.placeType types d = some t)
      (ht : types.carriesRef (some t) = true) :
      f.Restates types (.borrow d p k) (.assign d (.use (.ref p k)))

namespace Function.Restates

variable {f : Function} {types : TypeTable} {s s' : Statement}

theorem dest (h : f.Restates types s s') : s'.dest? = s.dest? := by
  cases h <;> rfl

theorem killed (h : f.Restates types s s') : s'.killed = s.killed := by
  rw [Statement.killed, Statement.killed, h.dest]

theorem destName (h : f.Restates types s s') : s'.destName = s.destName := by
  rw [Statement.destName, Statement.destName, h.dest]

theorem liveThrough (h : f.Restates types s s') (tracked : Names) :
    s'.liveThrough tracked = s.liveThrough tracked := by
  cases h <;> rfl

theorem effects (h : f.Restates types s s') :
    f.statementEffects types s' = f.statementEffects types s := by
  cases h <;> simp [statementEffects, valueEffects, Value.operands, operandEffects]

theorem emptied (h : f.Restates types s s') : f.emptied types s' = f.emptied types s := by
  cases h with
  | @move d p t hd hp =>
    by_cases hm : f.isMovable types p = true <;> simp [Function.emptied, Value.operands, hm]
  | borrow hd ht => rfl

theorem keepsRefs_of_type {d : Place} {t : TypeId} (hd : f.placeType types d = some t) (tracked : Names) :
    f.keepsRefs types tracked d = types.carriesRef (some t) := by
  rw [keepsRefs, hd]

theorem borrows (h : f.Restates types s s') (tracked : Names) :
    f.borrows types tracked s' = f.borrows types tracked s := by
  cases h with
  | move hd hp => rfl
  | borrow hd ht =>
    simp [Function.borrows, Value.operands, operandBorrows, keepsRefs_of_type hd, ht]

/-- The accesses agree once every borrow has its loan. -/
theorem accesses (h : f.Restates types s s') {tracked : Names} {issued : List Loan}
    (hlen : issued.length = (f.borrows types tracked s).length) :
    f.accesses types issued s' = f.accesses types issued s := by
  cases h with
  | move hd hp => rfl
  | @borrow d p k t hd ht =>
    obtain ⟨l, rfl⟩ := List.length_eq_one_iff.mp hlen
    rfl

/-- A value that is moved between places of one type is handed on in both ways or in neither. -/
theorem handedOn_move {d p : Place} {t : TypeId} (hd : f.placeType types d = some t)
    (hp : f.placeType types p = some t) (tracked : Names) :
    f.handedOn types tracked (.assign d (.use (.move p))) = f.handedOn types tracked (.move d p) := by
  have hhands : f.handsOn types tracked p = (tracked.contains p.name && types.carriesRef (some t)) := by
    rw [handsOn, hp]
  by_cases hc : types.carriesRef (some t) = true
  · by_cases ht : tracked.contains p.name = true <;>
      simp [handedOn, keepsRefs_of_type hd, hc, Value.cloned?, Value.operands, passedPlaces, hhands, ht]
  · rw [Bool.not_eq_true] at hc
    simp [handedOn, keepsRefs_of_type hd, hc, hhands]

/-- An assignment of a borrow hands nothing on. -/
theorem handedOn_ref (d p : Place) (k : LoanKind) (tracked : Names) :
    f.handedOn types tracked (.assign d (.use (.ref p k))) = [] := by
  simp [handedOn, Value.cloned?, Value.operands, passedPlaces]

end Function.Restates

/-! ## 2. The function with another statement -/

theorem map_set_of_eq {α β : Type} {l : List α} {i : Nat} {a a' : α} {g : α → β}
    (h : l[i]? = some a) (hg : g a' = g a) : (l.set i a').map g = l.map g := by
  obtain ⟨hi, rfl⟩ := List.getElem?_eq_some_iff.mp h
  rw [List.map_set, hg, ← List.getElem_map g (h := by simpa using hi), List.set_getElem_self]

theorem zipIdx_set {α : Type} (l : List α) (i : Nat) (a : α) :
    (l.set i a).zipIdx = l.zipIdx.set i (a, i) := by
  refine List.ext_getElem? fun j => ?_
  rw [List.getElem?_zipIdx, List.getElem?_set, List.getElem?_set, List.getElem?_zipIdx, List.length_zipIdx]
  split_ifs with h
  · rw [h, Nat.zero_add]
    rfl
  · rfl
  · rfl

namespace Function

/-- The function with another statement at a point. -/
def restate (f : Function) (p : Point) (s : Statement) : Function :=
  f.withBlocks (f.blocks.set p.block
    { f.block p.block with statements := (f.block p.block).statements.set p.stmt s })

variable {f : Function} {types : TypeTable} {p : Point} {s s' : Statement} {b : Nat}

theorem blocks_of_statementAt? (hs : f.statementAt? p = some s) :
    f.blocks[p.block]? = some (f.block p.block) := by
  rw [block, List.getD_eq_getElem?_getD]
  cases h : f.blocks[p.block]? with
  | none =>
    rw [statementAt?, block, List.getD_eq_getElem?_getD, h] at hs
    cases hs
  | some x => rfl

theorem block_restate (hs : f.statementAt? p = some s) : (f.restate p s').block b =
    if b = p.block then
      { f.block p.block with statements := (f.block p.block).statements.set p.stmt s' }
    else f.block b := by
  have hlt : p.block < f.blocks.length := (List.getElem?_eq_some_iff.mp (blocks_of_statementAt? hs)).1
  rw [block, restate, withBlocks, List.getD_eq_getElem?_getD, List.getElem?_set]
  by_cases e : b = p.block
  · rw [if_pos e, if_pos e.symm, if_pos hlt]
    rfl
  · rw [if_neg e, if_neg (Ne.symm e), block, List.getD_eq_getElem?_getD]

theorem statementAt?_restate (hs : f.statementAt? p = some s) (q : Point) :
    (f.restate p s').statementAt? q = if q = p then some s' else f.statementAt? q := by
  have hlt : p.stmt < (f.block p.block).statements.length := (List.getElem?_eq_some_iff.mp hs).1
  rw [statementAt?, block_restate hs]
  by_cases hb : q.block = p.block
  · rw [if_pos hb, List.getElem?_set, if_pos hlt]
    by_cases hstmt : p.stmt = q.stmt
    · have e : q = p := by
        obtain ⟨qb, qi⟩ := q
        cases hb
        cases hstmt
        rfl
      rw [if_pos hstmt, if_pos e]
    · have hne : q ≠ p := fun e => hstmt (congrArg Point.stmt e).symm
      rw [if_neg hstmt, if_neg hne, statementAt?, hb]
  · have hne : q ≠ p := fun e => hb (congrArg Point.block e)
    rw [if_neg hb, if_neg hne]
    rfl

theorem terminator_restate (hs : f.statementAt? p = some s) :
    ((f.restate p s').block b).terminator = (f.block b).terminator := by
  rw [block_restate hs]
  split_ifs with e
  · rw [e]
  · rfl

/-- **What is read off the statements of a block one by one** is the same if it is the same for the two
    statements. -/
theorem map_statementsOf_restate {α : Type} (hs : f.statementAt? p = some s)
    {g : Statement × Point → α} (hg : g (s', p) = g (s, p)) :
    ((f.restate p s').statementsOf b).map g = (f.statementsOf b).map g := by
  rw [statementsOf, statementsOf, block_restate hs]
  by_cases e : b = p.block
  · rw [if_pos e, zipIdx_set, List.map_map, List.map_map, e]
    have hat : (f.block p.block).statements.zipIdx[p.stmt]? = some (s, p.stmt) := by
      rw [List.getElem?_zipIdx, Nat.zero_add]
      exact congrArg (Option.map fun a => (a, p.stmt)) hs
    exact map_set_of_eq hat hg
  · rw [if_neg e]

theorem statementsOf_restate_ne (hs : f.statementAt? p = some s) (e : b ≠ p.block) :
    (f.restate p s').statementsOf b = f.statementsOf b := by
  rw [statementsOf, statementsOf, block_restate hs, if_neg e]

theorem flatMap_statementsOf_restate {α : Type} (hs : f.statementAt? p = some s)
    {g : Statement × Point → List α} (hg : g (s', p) = g (s, p)) :
    ((f.restate p s').statementsOf b).flatMap g = (f.statementsOf b).flatMap g := by
  rw [List.flatMap_def, List.flatMap_def, map_statementsOf_restate hs hg]

theorem filterMap_statementsOf_restate {α : Type} (hs : f.statementAt? p = some s)
    {g : Statement × Point → Option α} (hg : g (s', p) = g (s, p)) :
    ((f.restate p s').statementsOf b).filterMap g = (f.statementsOf b).filterMap g := by
  have hmap : ∀ l : List (Statement × Point), l.filterMap g = (l.map g).filterMap id :=
    fun l => (List.filterMap_map (f := g) (g := id)).symm
  rw [hmap, hmap, map_statementsOf_restate hs hg]

theorem foldr_statementsOf_restate {α : Type} (hs : f.statementAt? p = some s)
    {g : Statement × Point → α → α} (hg : g (s', p) = g (s, p)) (init : α) :
    ((f.restate p s').statementsOf b).foldr g init = (f.statementsOf b).foldr g init := by
  have hmap : ∀ l : List (Statement × Point), l.foldr g init = (l.map g).foldr (fun k x => k x) init :=
    fun l => (List.foldr_map (f := g) (g := fun k x => k x)).symm
  rw [hmap, hmap, map_statementsOf_restate hs hg]

theorem map_fst_statementsOf (f : Function) (b : Nat) :
    (f.statementsOf b).map Prod.fst = (f.block b).statements := by
  rw [statementsOf, List.map_map]
  exact List.zipIdx_map_fst 0 _

/-- What is read off the blocks is the same if it is the same for the two forms of the block. -/
theorem map_blocks_restate {α : Type} (hs : f.statementAt? p = some s) {g : Block → α}
    (hg : g { f.block p.block with statements := (f.block p.block).statements.set p.stmt s' } =
      g (f.block p.block)) : (f.restate p s').blocks.map g = f.blocks.map g :=
  map_set_of_eq (blocks_of_statementAt? hs) hg

theorem length_blocks_restate : (f.restate p s').blocks.length = f.blocks.length := List.length_set

theorem graph_restate (hs : f.statementAt? p = some s) : (f.restate p s').graph = f.graph := by
  rw [graph, graph, map_blocks_restate hs rfl]

theorem exitOf_restate (hs : f.statementAt? p = some s) : (f.restate p s').exitOf b = f.exitOf b := by
  rw [exitOf, exitOf, ← map_fst_statementsOf, ← map_fst_statementsOf, List.length_map, List.length_map]
  have hlen := congrArg List.length (map_statementsOf_restate (b := b) hs (rfl : Prod.snd (s', p) = p))
  rw [List.length_map, List.length_map] at hlen
  rw [hlen]

/-! ## 3. Moves and liveness -/

section Passes

variable (h : f.Restates types s s') (hs : f.statementAt? p = some s)

include h hs

theorem writesResult_restate : (f.restate p s').writesResult = f.writesResult := by
  have hany : ∀ bs : List Block, (bs.any fun b => b.statements.any fun s =>
      s.dest?.any fun d => d.root == f.result.root) =
      (bs.map fun b => b.statements.map Statement.dest?).any fun ds =>
        ds.any fun d => d.any fun d => d.root == f.result.root := fun bs => by
    simp only [List.any_map, Function.comp_def]
  have hdest : (f.restate p s').blocks.map (fun b => b.statements.map Statement.dest?) =
      f.blocks.map fun b => b.statements.map Statement.dest? :=
    map_blocks_restate hs (map_set_of_eq hs h.dest)
  refine (hany _).trans ?_
  rw [hdest]
  exact (hany _).symm

theorem blockEffects_restate : (f.restate p s').blockEffects types b = f.blockEffects types b := by
  have hstmts : ((f.restate p s').statementsOf b).map (fun x => (x.2, f.statementEffects types x.1)) =
      (f.statementsOf b).map fun x => (x.2, f.statementEffects types x.1) :=
    map_statementsOf_restate hs (congrArg (Prod.mk p) h.effects)
  have hterm : (f.restate p s').terminatorEffects types (f.block b).terminator =
      f.terminatorEffects types (f.block b).terminator := by
    cases (f.block b).terminator with
    | ret =>
      rw [terminatorEffects, terminatorEffects, writesResult_restate h hs]
      rfl
    | _ => rfl
  rw [blockEffects, blockEffects, exitOf_restate hs, terminator_restate hs, hterm]
  exact congrArg (· ++ _) hstmts

theorem moveSites_restate : (f.restate p s').moveSites types = f.moveSites types := by
  rw [moveSites, moveSites, length_blocks_restate]
  refine List.flatMap_congr fun b _ => ?_
  exact flatMap_statementsOf_restate hs (congrArg (List.map (Prod.mk p)) h.emptied)

/-- **The moves are the same in both ways.** -/
theorem trackMoves_restate (cap : Nat) : (f.restate p s').trackMoves (f.restate p s').graph types cap =
    f.trackMoves f.graph types cap := by
  have hout : ∀ b, (f.restate p s').outgoing types b = f.outgoing types b := fun b => by
    funext m
    rw [outgoing, outgoing, blockEffects_restate h hs]
  have hvisit : (f.restate p s').visitMoves f.graph types = f.visitMoves f.graph types := by
    funext b m
    rw [visitMoves, visitMoves, hout]
    rfl
  simp only [trackMoves, graph_restate hs, hvisit, moveSites_restate h hs, blockEffects_restate h hs]
  rfl

end Passes

/-- The tracked roots: those of a type that carries references, and those that a borrow is stored in. -/
theorem mem_tracked {r : String} : r ∈ f.tracked types ↔
    (∃ x ∈ f.locals, types.carriesRef x.2.type = true ∧ x.1 = r) ∨
      ∃ q d o k, f.statementAt? q = some (.borrow d o k) ∧ d.name = r := by
  constructor
  · intro hr
    rw [tracked, ExtTreeSet.mem_ofList, List.contains_iff_mem] at hr
    rcases List.mem_append.mp hr with hr | hr
    · obtain ⟨x, hx, he⟩ := List.mem_filterMap.mp hr
      obtain ⟨hc, he⟩ := Option.ite_none_right_eq_some.mp he
      exact Or.inl ⟨x, hx, hc, Option.some.inj he⟩
    · obtain ⟨b, hb, hr⟩ := List.mem_flatMap.mp hr
      obtain ⟨i, hi⟩ := List.mem_iff_getElem?.mp hb
      obtain ⟨s, hs, he⟩ := List.mem_filterMap.mp hr
      obtain ⟨j, hj⟩ := List.mem_iff_getElem?.mp hs
      have hat : f.statementAt? ⟨i, j⟩ = some s := by
        rw [statementAt?, block, List.getD_eq_getElem?_getD, hi]
        exact hj
      cases s with
      | borrow d o k => exact Or.inr ⟨⟨i, j⟩, d, o, k, hat, Option.some.inj he⟩
      | _ => cases he
  · intro hr
    rcases hr with ⟨x, hx, hc, rfl⟩ | ⟨q, d, o, k, hq, rfl⟩
    · rw [tracked, ExtTreeSet.mem_ofList, List.contains_iff_mem]
      exact List.mem_append_left _ (List.mem_filterMap.mpr ⟨x, hx, if_pos hc⟩)
    · exact tracked_of_borrow hq

section Passes

variable (h : f.Restates types s s') (hs : f.statementAt? p = some s)

include h hs

/-- The root that the replaced borrow is stored in is tracked by its type. -/
theorem tracked_restate : (f.restate p s').tracked types = f.tracked types := by
  refine ExtTreeSet.ext_mem fun r => ?_
  rw [mem_tracked, mem_tracked]
  constructor
  · intro hr
    refine hr.imp_right fun hr => ?_
    obtain ⟨q, d, o, k, hq, hname⟩ := hr
    rw [statementAt?_restate hs] at hq
    split_ifs at hq with e
    · cases h <;> cases hq
    · exact ⟨q, d, o, k, hq, hname⟩
  · intro hr
    rcases hr with hr | ⟨q, d, o, k, hq, rfl⟩
    · exact Or.inl hr
    · by_cases e : q = p
      · cases (e ▸ hs).symm.trans hq
        cases h with
        | borrow hd ht =>
          have hkeeps : (f.restate p (.assign d (.use (.ref o k)))).keepsRefs types
              ((f.restate p (.assign d (.use (.ref o k)))).tracked types) d = true :=
            (Restates.keepsRefs_of_type hd _).trans ht
          exact mem_tracked.mp (tracked_of_keepsRefs hkeeps)
      · refine Or.inr ⟨q, d, o, k, ?_, rfl⟩
        rw [statementAt?_restate hs, if_neg e]
        exact hq

/-- **Liveness is the same in both ways.** -/
theorem trackLive_restate (cap : Nat) : (f.restate p s').trackLive (f.restate p s').graph types cap =
    f.trackLive f.graph types cap := by
  have hthrough : ∀ tracked b out, (f.restate p s').liveThroughBlock tracked b out =
      f.liveThroughBlock tracked b out := fun tracked b out => by
    have hfold : ∀ g : Function, ∀ x, (g.block b).statements.foldr (Statement.liveThrough tracked) x =
        (g.statementsOf b).foldr (fun y => y.1.liveThrough tracked) x := fun g x => by
      rw [← map_fst_statementsOf, List.foldr_map]
    rw [liveThroughBlock, liveThroughBlock, hfold, hfold, terminator_restate hs,
      foldr_statementsOf_restate hs (h.liveThrough tracked)]
    rfl
  have hvisit : ∀ tracked, (f.restate p s').visitLive f.graph tracked = f.visitLive f.graph tracked := by
    intro tracked
    funext b m
    rw [visitLive, visitLive, hthrough]
  have hpoints : ∀ tracked b out, (f.restate p s').livePoints tracked b out =
      f.livePoints tracked b out := fun tracked b out => by
    rw [livePoints, livePoints, exitOf_restate hs, terminator_restate hs, foldr_statementsOf_restate hs]
    · rfl
    · funext acc
      simp only [h.liveThrough tracked]
  simp only [trackLive, graph_restate hs, tracked_restate h hs, hvisit, hpoints]

theorem issueLoans_restate (tracked : Names) :
    (f.restate p s').issueLoans types tracked (f.restate p s').graph =
      f.issueLoans types tracked f.graph := by
  have hmade : ∀ b, ((f.restate p s').statementsOf b).flatMap (fun x =>
      (f.borrows types tracked x.1).map fun row => (x.2, row)) =
      (f.statementsOf b).flatMap fun x => (f.borrows types tracked x.1).map fun row => (x.2, row) :=
    fun b => flatMap_statementsOf_restate hs (congrArg (List.map (Prod.mk p)) (h.borrows tracked))
  rw [issueLoans, issueLoans, graph_restate hs]
  exact congrArg (fun l => List.map _ (List.zipIdx l)) (List.flatMap_congr fun b _ => hmade b)

end Passes

end Function

/-! ## 4. Loans -/

/-- Two passes that do the same as long as an invariant holds run the same way. -/
theorem Worklist.run_congr_of_invariant {σ : Type} {order : List Nat}
    {visit visit' : Nat → σ → σ × List Nat} (I : List Nat → σ → Prop)
    (step : ∀ b rest s, I (b :: rest) s → I (enqueue order rest (visit b s).2) (visit b s).1)
    (hsame : ∀ b rest s, I (b :: rest) s → visit' b s = visit b s) (cap : Nat) {waiting : List Nat}
    {s : σ} (h : I waiting s) (n : Nat) :
    run order visit' cap waiting s n = run order visit cap waiting s n := by
  induction cap generalizing waiting s n with
  | zero =>
    cases waiting with
    | nil => rfl
    | cons b rest => rfl
  | succ cap ih =>
    cases waiting with
    | nil => rfl
    | cons b rest =>
      rw [run, run, hsame b rest s h]
      exact ih (step b rest s h) _

namespace Function

variable {f : Function} {types : TypeTable} {p : Point} {s s' : Statement} {b : Nat}

/-- The loans that the two statements derive from are the same, whatever references come to the
    point. -/
def SameParents (f : Function) (types : TypeTable) (live : LiveFacts) (p : Point) (s s' : Statement) :
    Prop :=
  ∀ table ids, readLoans table ids ⊆ f.collect (f.holdRule types live) ∅ p →
    f.parents types live table ids s' = f.parents types live table ids s

theorem holdRule_collect {live : LiveFacts} {k : Nat} (hb : f.Reaches ⟨b, 0⟩)
    (hk : k < (f.block b).statements.length) :
    f.holdRule types live ⟨b, k⟩ (f.collect (f.holdRule types live) ∅ ⟨b, k⟩) =
      f.collect (f.holdRule types live) ∅ ⟨b, k + 1⟩ := by
  have hr : ∀ q, Additive (f.holdRule types live q) := fun q => holdRule_additive q
  rw [← through_collect hr hb hk, ← through_collect hr hb hk.le, through]

section Loans

variable {live : LiveFacts} (h : f.Restates types s s') (hs : f.statementAt? p = some s)
  (hpar : f.SameParents types live p s s')

include h hpar

theorem loanStep_restate {table : List Loan} {ids : LoanIds}
    (hread : readLoans table ids ⊆ f.collect (f.holdRule types live) ∅ p) :
    f.loanStep types live p s' table ids = f.loanStep types live p s table ids := by
  rw [loanStep_eq, loanStep_eq, derivedAt, derivedAt, left, left, h.destName, h.killed,
    hpar table ids hread]

include hs

/-- Over the statements of the block from the `k`-th on: before each of them there are only references
    that some route brings there. -/
theorem loanSteps_restate (hreach : f.Reaches ⟨p.block, 0⟩) (n : Nat) :
    ∀ {k : Nat} {table : List Loan} {ids : LoanIds}, k + n = (f.block p.block).statements.length →
      LoanTable (f.issueLoans types live.tracked f.graph) table → Listed table ids →
      readLoans table ids ⊆ f.collect (f.holdRule types live) ∅ ⟨p.block, k⟩ →
      f.loanSteps types live (((f.restate p s').statementsOf p.block).drop k) table ids =
        f.loanSteps types live ((f.statementsOf p.block).drop k) table ids := by
  have hblock : ((f.restate p s').block p.block).statements =
      (f.block p.block).statements.set p.stmt s' := by
    rw [block_restate hs, if_pos rfl]
  induction n with
  | zero =>
    intro k table ids hk _ _ _
    rw [List.drop_of_length_le (by simp [statementsOf, hblock, ← hk]),
      List.drop_of_length_le (by simp [statementsOf, ← hk])]
  | succ n ih =>
    intro k table ids hk ht hl hsub
    have hlt : k < (f.block p.block).statements.length := by omega
    have hlt' : k < ((f.restate p s').block p.block).statements.length := by
      rw [hblock, List.length_set]
      exact hlt
    have hat : f.statementAt? ⟨p.block, k⟩ = some (f.block p.block).statements[k] :=
      List.getElem?_eq_getElem hlt
    have hstep : f.loanStep types live ⟨p.block, k⟩ ((f.restate p s').block p.block).statements[k]
        table ids = f.loanStep types live ⟨p.block, k⟩ (f.block p.block).statements[k] table ids := by
      by_cases e : k = p.stmt
      · subst e
        have hold : (f.block p.block).statements[p.stmt] = s := Option.some.inj (hat.symm.trans hs)
        have hnew : ((f.restate p s').block p.block).statements[p.stmt] = s' := by
          simp only [hblock, List.getElem_set_self]
        rw [hold, hnew]
        exact loanStep_restate h hpar hsub
      · have hsame : ((f.restate p s').block p.block).statements[k] =
            (f.block p.block).statements[k] := by
          simp only [hblock, List.getElem_set_ne (Ne.symm e)]
        rw [hsame]
    obtain ⟨mid, ids₁, row, he⟩ : ∃ mid ids₁ row, f.loanStep types live ⟨p.block, k⟩
        (f.block p.block).statements[k] table ids = (mid, ids₁, row) := ⟨_, _, _, rfl⟩
    obtain ⟨hmid, _, hlisted, hread, _⟩ := loanStep_spec hat ht hl he
    have hnext := hread.trans_subset ((holdRule_additive _).mono hsub)
    rw [holdRule_collect hreach hlt] at hnext
    rw [statementsOf_drop hlt, statementsOf_drop hlt', loanSteps, loanSteps, hstep, he]
    simp only [ih (by omega) hmid hlisted hnext]

theorem loanBlock_restate {table : List Loan} {ids : LoanIds} (hreach : f.Reaches ⟨b, 0⟩)
    (ht : LoanTable (f.issueLoans types live.tracked f.graph) table) (hl : Listed table ids)
    (hread : readLoans table ids ⊆ f.collect (f.holdRule types live) ∅ ⟨b, 0⟩) :
    (f.restate p s').loanBlock types live b table ids = f.loanBlock types live b table ids := by
  have hexit : (f.restate p s').loanExit live b = f.loanExit live b := by
    unfold loanExit
    rw [terminator_restate hs]
  have hsteps : f.loanSteps types live ((f.restate p s').statementsOf b) table ids =
      f.loanSteps types live (f.statementsOf b) table ids := by
    by_cases e : b = p.block
    · subst e
      exact loanSteps_restate h hs hpar hreach _ (Nat.zero_add _) ht hl hread
    · rw [statementsOf_restate_ne hs e]
  rw [loanBlock, loanBlock, show (f.restate p s').loanSteps types live ((f.restate p s').statementsOf b) =
    f.loanSteps types live ((f.restate p s').statementsOf b) from Twins.loanSteps _ _, hsteps, hexit,
    exitOf_restate hs]

/-- Every visit finds only references that some route brings to its block. -/
theorem visitLoans_restate (hf : f.WellFormed) {rest : List Nat} {st : LoanSets}
    (hI : ForwardPass.Invariant f (f.holdRule types live) ∅
      (LoanSets.LoansListed (f.issueLoans types live.tracked f.graph)) LoanSets.insHolds LoanSets.outsHolds
      (b :: rest) st) :
    (f.restate p s').visitLoans types live f.graph b st = f.visitLoans types live f.graph b st := by
  obtain ⟨hb, hk⟩ := hI.waits b List.mem_cons_self
  obtain ⟨hreach, hsub⟩ := hI.joined_sub hf (fun q => holdRule_additive q) hb hk
  rw [← readLoans_into] at hsub
  have hblock := loanBlock_restate h hs hpar hreach hI.good.table (loansInto_listed hI.good b) hsub
  have hvisit : ∀ g : Function, g.visitLoans types live f.graph b st =
      let r := g.loanBlock types live b st.table (f.loansInto st b)
      if st.outs.get? b = some r.2.1 then (⟨r.1, st.ins.insert b (f.loansInto st b), st.outs⟩, [])
      else (⟨r.1, st.ins.insert b (f.loansInto st b), st.outs.insert b r.2.1⟩, f.graph.succsOf b) :=
    fun _ => rfl
  rw [hvisit, hvisit, hblock]

theorem replayLoans_restate {ins : ExtTreeMap Nat LoanIds} {table₀ : List Loan}
    (hins : ∀ b ids, ins.get? b = some ids → Listed table₀ ids ∧ f.Reaches ⟨b, 0⟩ ∧
      readLoans table₀ ids ⊆ f.collect (f.holdRule types live) ∅ ⟨b, 0⟩) (bs : List Nat) :
    ∀ {table : List Loan}, table₀ <+: table →
      LoanTable (f.issueLoans types live.tracked f.graph) table →
      (f.restate p s').replayLoans types live ins bs table = f.replayLoans types live ins bs table := by
  induction bs with
  | nil => exact fun _ _ => rfl
  | cons b bs ih =>
    intro table hpre ht
    rw [replayLoans, replayLoans]
    cases hb : ins.get? b with
    | none => exact ih hpre ht
    | some ids =>
      obtain ⟨hlisted, hreach, hread⟩ := hins b ids hb
      rw [← readLoans_of_grown hlisted hpre] at hread
      obtain ⟨mid, out, rows, he⟩ : ∃ mid out rows,
        f.loanBlock types live b table ids = (mid, out, rows) := ⟨_, _, _, rfl⟩
      obtain ⟨hmid, hgrown, _⟩ := loanBlock_spec ht (hlisted.mono hpre) he
      have hblock := loanBlock_restate h hs hpar hreach ht (hlisted.mono hpre) hread
      simp only [hblock, he, ih (hpre.trans hgrown) hmid]

/-- **The loans are the same in both ways**, as far as the same is handed on. -/
theorem trackLoans_restate (hf : f.WellFormed) (cap : Nat) :
    (f.restate p s').trackLoans (f.restate p s').graph types cap live =
      f.trackLoans f.graph types cap live := by
  have hissue := issueLoans_restate h hs live.tracked
  rw [graph_restate hs] at hissue
  have hrun : Worklist.run f.graph.order ((f.restate p s').visitLoans types live f.graph) cap [0]
      (f.firstLoans types live) 0 =
      Worklist.run f.graph.order (f.visitLoans types live f.graph) cap [0] (f.firstLoans types live) 0 :=
    Worklist.run_congr_of_invariant _ (fun _ _ _ hI => hI.next hf loansPass)
      (fun _ _ _ hI => visitLoans_restate h hs hpar hf hI) cap (startLoans hf) 0
  have hins : ∀ b ids, (f.lastLoans types cap live).ins.get? b = some ids →
      Listed (f.lastLoans types cap live).table ids ∧ f.Reaches ⟨b, 0⟩ ∧
        readLoans (f.lastLoans types cap live).table ids ⊆
          f.collect (f.holdRule types live) ∅ ⟨b, 0⟩ := fun b ids hids =>
    ⟨(lastLoans_loansListed hf).ins b ids hids,
      loansPass.sub_collect hf (startLoans hf) (congrArg (Option.map (readLoans _)) hids)⟩
  have hrows := replayLoans_restate h hs hpar hins f.graph.order List.prefix_rfl (lastLoans_loansListed hf).table
  unfold lastLoans firstLoans at hrows
  unfold firstLoans at hrun
  simp only [trackLoans, graph_restate hs, hissue, hrun, hrows]
  rfl

end Loans

end Function

end Ownership
