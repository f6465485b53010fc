import Ownership.Proofs.Accepted
import Ownership.Proofs.Conflict.Silence
import Ownership.Proofs.Restated.Passes

/-!
# The report on a restated function

If the passes find out the same about a function and about the function with one statement said as an
assignment, then so do the checks, and the reports are equal.

* `check_restate`: the report is the same if the same is handed on at the point;
* `move_as_operand`: a move can always be said as an assignment;
* `borrow_as_operand`: so can a borrow, unless it goes through a reference whose own loans are in use
  there. The assignment forgets these loans (`renewal_forgotten`).
-/

namespace Ownership

open Std

namespace Function

variable {f : Function} {types : TypeTable} {p : Point} {s s' : Statement} {b cap : Nat}

/-! ## 1. Checks -/

section Checks

variable (hf : f.WellFormed) (h : f.Restates types s s') (hs : f.statementAt? p = some s)

include h hs

theorem frames_restate : (f.restate p s').frames (f.restate p s').graph = f.frames f.graph := by
  have hreturns : (f.restate p s').returns f.graph = f.returns f.graph := by
    refine List.filterMap_congr fun b _ => ?_
    rw [exitOf_restate hs, terminator_restate hs]
  have hdrop : dropFrame? (s', p) = dropFrame? (s, p) := by
    cases h <;> rfl
  have hdrops : (f.graph.reachable.flatMap fun b =>
      ((f.restate p s').statementsOf b).filterMap dropFrame?) =
      f.graph.reachable.flatMap fun b => (f.statementsOf b).filterMap dropFrame? :=
    List.flatMap_congr fun b _ => filterMap_statementsOf_restate hs hdrop
  rw [frames, frames, graph_restate hs, hreturns, hdrops]
  rfl

include hf

/-- In a block that is reached every borrow has its loan. -/
theorem accessPoints_restate :
    (f.restate p s').accessPoints (f.restate p s').graph types (f.analyse types cap).loans =
      f.accessPoints f.graph types (f.analyse types cap).loans := by
  have htable := analyse_table hf types cap
  rw [accessPoints, accessPoints, graph_restate hs]
  refine List.flatMap_congr fun b hb => ?_
  rw [exitOf_restate hs, terminator_restate hs]
  refine congrArg (· ++ _) ?_
  by_cases e : b = p.block
  · have hlen : ((f.analyse types cap).loans.issued p).length =
        (f.borrows types (f.tracked types) s).length := by
      rw [LoanFacts.issued, htable.issuedAtPoint_eq]
      exact issued_length (e ▸ hb) hs
    simp only [show ∀ ls s, (f.restate p s').accesses types ls s = f.accesses types ls s from
      fun ls s => Twins.accesses ls s]
    exact map_statementsOf_restate hs (congrArg (Prod.mk p) (h.accesses hlen))
  · rw [statementsOf_restate_ne hs e]
    exact List.map_congr_left fun x _ => congrArg (Prod.mk x.2) (Twins.accesses _ x.1)

/-- **The report is the same**, as far as the same is handed on at the point. -/
theorem check_restate (st : Settings)
    (hpar : f.SameParents types (f.trackLive f.graph types st.maxVisits) p s s') :
    (f.restate p s').check types st = f.check types st := by
  have hmoves := trackMoves_restate h hs st.maxVisits
  have hlive := trackLive_restate h hs st.maxVisits
  have hloans := trackLoans_restate h hs hpar hf st.maxVisits
  have hconflicts : ((f.restate p s').analyse types st.maxVisits).conflicts =
      (f.analyse types st.maxVisits).conflicts := by
    show (f.restate p s').detect _ types _ _ _ = f.detect _ types _ _ _
    rw [detect, detect, hmoves, hlive, hloans, frames_restate h hs]
    exact congrArg (fun as => _ ++ (pointsConflicts _ as []).1 ++ _) (accessPoints_restate hf h hs)
  have hstalled : ((f.restate p s').analyse types st.maxVisits).stalled =
      (f.analyse types st.maxVisits).stalled := by
    simp only [Analysis.stalled, analyse, hmoves, hlive, hloans]
  have hdead : ((f.restate p s').analyse types st.maxVisits).deadFindings =
      (f.analyse types st.maxVisits).deadFindings := by
    have hgraph : ((f.restate p s').analyse types st.maxVisits).graph = f.graph := graph_restate hs
    rw [Analysis.deadFindings, Analysis.deadFindings, hgraph]
    rfl
  rw [check, check, Analysis.report, Analysis.report, hconflicts, hdead, Analysis.stalledFinding,
    Analysis.stalledFinding, hstalled]
  rfl

end Checks

/-! ## 2. Validation -/

/-- A statement of the restated function is one of the function, or the new one. -/
theorem mem_blocks_restate {x : Block} (hx : x ∈ (f.restate p s').blocks)
    (hs : f.statementAt? p = some s) : ∃ y ∈ f.blocks, x.terminator = y.terminator ∧
      ∀ t ∈ x.statements, t ∈ y.statements ∨ t = s' ∧ s ∈ y.statements := by
  rcases List.mem_or_eq_of_mem_set hx with hx | rfl
  · exact ⟨x, hx, rfl, fun t ht => Or.inl ht⟩
  · obtain ⟨hblock, hmem⟩ := block_of_statementAt? hs
    refine ⟨_, hblock, rfl, fun t ht => ?_⟩
    exact (List.mem_or_eq_of_mem_set ht).imp_right fun e => ⟨e, hmem⟩

theorem validate_restate {d : Draft} (hv : d.validate types = .ok f) (h : f.Restates types s s')
    (hs : f.statementAt? p = some s) :
    (f.restate p s').draft.validate types = .ok (f.restate p s') := by
  have hd := Draft.eq_draft_of_validate hv
  rw [hd] at hv
  obtain ⟨_, hhead, hclosed, hjumps, hfields⟩ := validate_draft_iff.mp hv
  have hplaces : s'.places = s.places := by
    cases h <;> rfl
  have hnew : ∀ v ∈ s'.value?, v.fieldNames.Nodup := by
    intro v hv
    cases h with
    | move hd hp => cases hv; exact List.nodup_nil
    | borrow hd ht => cases hv; exact List.nodup_nil
  refine validate_draft_iff.mpr ⟨rfl, ?_, fun q hq => ?_, fun x hx t ht => ?_, fun x hx t ht => ?_⟩
  · have hempty : (f.restate p s').draft.blocks.isEmpty = f.draft.blocks.isEmpty := by
      rw [Bool.eq_iff_iff, List.isEmpty_iff_length_eq_zero, List.isEmpty_iff_length_eq_zero, draft, draft,
        List.length_map, List.length_map, length_blocks_restate]
    unfold Draft.checkHead at hhead ⊢
    rw [hempty]
    exact hhead
  · obtain ⟨x, hx, hmention⟩ := mem_places.mp hq
    obtain ⟨y, hy, hterm, hstmts⟩ := mem_blocks_restate hx hs
    refine hclosed q (mem_places.mpr ⟨y, hy, ?_⟩)
    rcases hmention with ⟨t, ht, hmention⟩ | hmention
    · rcases hstmts t ht with ht | ⟨rfl, hmem⟩
      · exact Or.inl ⟨t, ht, hmention⟩
      · exact Or.inl ⟨s, hmem, hplaces ▸ hmention⟩
    · exact Or.inr (hterm ▸ hmention)
  · obtain ⟨y, hy, hterm, _⟩ := mem_blocks_restate hx hs
    rw [length_blocks_restate]
    exact hjumps y hy t (hterm ▸ ht)
  · obtain ⟨y, hy, _, hstmts⟩ := mem_blocks_restate hx hs
    rcases hstmts t ht with ht | ⟨rfl, _⟩
    · exact hfields y hy t ht
    · exact hnew

theorem verify_restate {d : Draft} (hv : d.validate types = .ok f) (h : f.Restates types s s')
    (hs : f.statementAt? p = some s) (st : Settings)
    (hpar : f.SameParents types (f.trackLive f.graph types st.maxVisits) p s s') :
    ∃ r, d.verify types st = .ok r ∧ (f.restate p s').draft.verify types st = .ok r := by
  refine ⟨f.check types st, ?_, ?_⟩
  · rw [Draft.verify, hv]
    rfl
  · rw [Draft.verify, validate_restate hv h hs, ← check_restate (Draft.wellFormed_of_validate hv) h hs st hpar]
    rfl

/-! ## 3. What is handed on -/

theorem sameParents_move {d q : Place} {t : TypeId} (hd : f.placeType types d = some t)
    (hq : f.placeType types q = some t) (live : LiveFacts) :
    f.SameParents types live p (.move d q) (.assign d (.use (.move q))) := by
  intro table ids _
  rw [parents, parents, Restates.handedOn_move hd hq]

/-- If nothing that is in use at the point is held by the root that is borrowed through, then nothing
    is handed on there at all. -/
theorem sameParents_borrow (hf : f.WellFormed) {d q : Place} {k : LoanKind}
    (hs : f.statementAt? p = some (.borrow d q k))
    (hheld : q.hasDeref = true → (f.analyse types cap).loans.converged = true ∧
      ∀ x ∈ (f.analyse types cap).loans.activeBefore p, x.holder ≠ some q.name) :
    f.SameParents types (f.trackLive f.graph types cap) p (.borrow d q k)
      (.assign d (.use (.ref q k))) := by
  intro table ids hread
  rw [parents, Restates.handedOn_ref]
  refine (List.eq_nil_iff_forall_not_mem.mpr fun l hl => ?_).symm
  obtain ⟨y, hy, hflow, i, hi, hget⟩ := mem_parents.mp hl
  have hcollect := hread ⟨i, hi, l, hget, hy⟩
  have hreach : f.Reaches p := hcollect.imp fun _ hr => hr.1
  have huses := hflow.uses
  obtain ⟨hb, hstmt⟩ := hreach.choose_spec.mem_order hf
  obtain ⟨hderef, _, hname⟩ := hflow
  obtain ⟨hloans, hnone⟩ := hheld hderef
  have hlive : y.holder ∈ (f.analyse types cap).loans.live.liveBefore p := by
    refine (mem_liveBefore_step hf hb hstmt).mpr (Or.inl ?_)
    rw [usesAt, hs]
    exact huses
  rw [← reaching_collect hf hloans hreach] at hcollect
  obtain ⟨x, hx, hhold⟩ := LoanFacts.exists_activeBefore.mpr ⟨hcollect, hlive⟩
  exact hnone x hx ((Loan.hold?_eq_some.mp hhold).2.2.trans (congrArg some hname.symm))

end Function

/-! ## 4. Moves -/

variable {f : Function} {types : TypeTable} {p : Point} {dest src : Place} {t : TypeId}

/-- **A move can be said as an assignment.** Between places of one known type, a statement that moves
    and the assignment of a moved operand give the same report, whatever the settings. -/
theorem move_as_operand {d : Draft} (hv : d.validate types = .ok f)
    (hs : f.statementAt? p = some (.move dest src)) (hdest : f.placeType types dest = some t)
    (hsrc : f.placeType types src = some t) (s : Settings) :
    ∃ r, d.verify types s = .ok r ∧
      (f.restate p (.assign dest (.use (.move src)))).draft.verify types s = .ok r :=
  Function.verify_restate hv (.move hdest hsrc) hs s (Function.sameParents_move hdest hsrc _)

/-- `x` is borrowed by `r`, `s` makes a reference for `q` out of that, and `x` is replaced while `q` is in
    use. -/
def renewal (s : Statement) : Function where
  name := "renewal"
  params := []
  result := ⟨⟨.result, "_ret"⟩, []⟩
  locals := [("x", ⟨⟨.localVar, "x"⟩, some 2⟩), ("r", ⟨⟨.localVar, "r"⟩, some 3⟩),
    ("q", ⟨⟨.localVar, "q"⟩, some 3⟩), ("_ret", ⟨⟨.result, "_ret"⟩, some 4⟩)]
  blocks := [
    ⟨[.assign ⟨⟨.localVar, "x"⟩, []⟩ (.alloc "Vec"),
      .borrow ⟨⟨.localVar, "r"⟩, []⟩ ⟨⟨.localVar, "x"⟩, []⟩ .unique, s,
      .assign ⟨⟨.localVar, "x"⟩, []⟩ (.alloc "Vec"),
      .eval (.call "use" [.copy ⟨⟨.localVar, "q"⟩, []⟩])], .ret⟩]

/-- The reference in `r` is moved to `q`. -/
def renewalMove : Statement := .move ⟨⟨.localVar, "q"⟩, []⟩ ⟨⟨.localVar, "r"⟩, []⟩

/-- The loan goes along with the reference, so both ways report the conflict. -/
theorem move_as_operand_renewal :
    (renewal renewalMove).draft.validate relayTypes = .ok (renewal renewalMove) ∧
      ((renewal renewalMove).check relayTypes conflictsOnly).ok = false ∧
      ∃ r, (renewal renewalMove).draft.verify relayTypes conflictsOnly = .ok r ∧
        ((renewal renewalMove).restate ⟨0, 2⟩ (.assign ⟨⟨.localVar, "q"⟩, []⟩
          (.use (.move ⟨⟨.localVar, "r"⟩, []⟩)))).draft.verify relayTypes conflictsOnly = .ok r := by
  have hv : (renewal renewalMove).draft.validate relayTypes = .ok (renewal renewalMove) := rfl
  have hs : (renewal renewalMove).statementAt? ⟨0, 2⟩ = some renewalMove := rfl
  exact ⟨hv, by decide +kernel, move_as_operand (t := 3) hv hs rfl rfl conflictsOnly⟩

/-! ## 5. Borrows -/

/-- **A borrow can be said as an assignment**, into a place of a known type that carries references and
    unless it goes through a reference: then the loans that the root of this reference holds must not
    be in use. The whole report is the same. -/
theorem borrow_as_operand {d : Draft} {k : LoanKind} (hv : d.validate types = .ok f)
    (hs : f.statementAt? p = some (.borrow dest src k)) (hdest : f.placeType types dest = some t)
    (hcarries : types.carriesRef (some t) = true) (s : Settings)
    (hheld : src.hasDeref = true → (f.analyse types s.maxVisits).loans.converged = true ∧
      ∀ x ∈ (f.analyse types s.maxVisits).loans.activeBefore p, x.holder ≠ some src.name) :
    ∃ r, d.verify types s = .ok r ∧
      (f.restate p (.assign dest (.use (.ref src k)))).draft.verify types s = .ok r :=
  Function.verify_restate hv (.borrow hdest hcarries) hs s
    (Function.sameParents_borrow (Draft.wellFormed_of_validate hv) hs hheld)

/-- The caller's value is borrowed through the parameter `r`, and replaced while the borrow is in use. -/
def replaced : Function where
  name := "replaced"
  params := [⟨⟨.param, "r"⟩, []⟩]
  result := ⟨⟨.result, "_ret"⟩, []⟩
  locals := [("r", ⟨⟨.param, "r"⟩, some 3⟩), ("q", ⟨⟨.localVar, "q"⟩, some 3⟩),
    ("_ret", ⟨⟨.result, "_ret"⟩, some 4⟩)]
  blocks := [
    ⟨[.borrow ⟨⟨.localVar, "q"⟩, []⟩ ⟨⟨.param, "r"⟩, [.deref]⟩ .unique,
      .assign ⟨⟨.param, "r"⟩, [.deref]⟩ (.alloc "Vec"),
      .eval (.call "use" [.copy ⟨⟨.localVar, "q"⟩, []⟩])], .ret⟩]

/-- What is borrowed lies behind a reference, which comes from outside and holds no loans. -/
theorem borrow_as_operand_replaced :
    replaced.draft.validate relayTypes = .ok replaced ∧
      (replaced.check relayTypes conflictsOnly).ok = false ∧
      ∃ r, replaced.draft.verify relayTypes conflictsOnly = .ok r ∧
        (replaced.restate ⟨0, 0⟩ (.assign ⟨⟨.localVar, "q"⟩, []⟩
          (.use (.ref ⟨⟨.param, "r"⟩, [.deref]⟩ .unique)))).draft.verify relayTypes conflictsOnly = .ok r := by
  have hv : replaced.draft.validate relayTypes = .ok replaced := rfl
  have hconverged : (replaced.analyse relayTypes 20).loans.converged = true := by decide +kernel
  have hnone : (replaced.analyse relayTypes 20).loans.activeBefore ⟨0, 0⟩ = [] := by decide +kernel
  refine ⟨hv, by decide +kernel, borrow_as_operand (t := 3) hv rfl rfl (by decide +kernel) conflictsOnly
    fun _ => ⟨hconverged, fun x hx => ?_⟩⟩
  exact absurd (hnone ▸ hx) List.not_mem_nil

/-- What `r` refers to is borrowed for `q`. -/
def renewalBorrow : Statement :=
  .borrow ⟨⟨.localVar, "q"⟩, []⟩ ⟨⟨.localVar, "r"⟩, [.deref]⟩ .unique

/-- The same as an assignment. -/
def renewalAssign : Statement :=
  .assign ⟨⟨.localVar, "q"⟩, []⟩ (.use (.ref ⟨⟨.localVar, "r"⟩, [.deref]⟩ .unique))

/-- **Said as an assignment, a borrow through a reference forgets what the reference borrows**: the
    value is replaced under the borrow, and the verdict is good. -/
theorem renewal_forgotten :
    (renewal renewalBorrow).draft.validate relayTypes = .ok (renewal renewalBorrow) ∧
      (renewal renewalBorrow).restate ⟨0, 2⟩ renewalAssign = renewal renewalAssign ∧
      (renewal renewalBorrow).placeType relayTypes ⟨⟨.localVar, "q"⟩, []⟩ = some 3 ∧
      relayTypes.carriesRef (some 3) = true ∧
      ((renewal renewalBorrow).analyse relayTypes 20).stalled = [] ∧
      ((renewal renewalAssign).analyse relayTypes 20).stalled = [] ∧
      ((renewal renewalBorrow).check relayTypes conflictsOnly).ok = false ∧
      ((renewal renewalAssign).check relayTypes conflictsOnly).ok = true := by
  refine ⟨rfl, rfl, rfl, ?_, ?_, ?_, ?_, ?_⟩ <;> decide +kernel

end Ownership
