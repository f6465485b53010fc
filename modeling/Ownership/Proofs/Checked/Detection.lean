import Ownership.Proofs.Checked.Loans
import Ownership.Proofs.Checked.Written

/-!
# Detection, with checked lookups

The checks look up the loans that reach a point, and they hand out the loans that a statement makes to
its borrows, one by one. The first are in the table (`reaching_listed`), and of the second there are as
many as borrows (`Function.issued_length`): neither runs out. What is dropped, and what a conflict is
about, is written out.

* `Checked.accesses_eq`: every borrow of a statement gets its loan;
* `Checked.frames_gives`: the frames of the function and of what it drops;
* `Checked.detect_gives`: all checks.
-/

namespace Ownership

open Std

namespace Checked

/-! ## 1. Accesses -/

section Accesses

variable (f : Function) (types : TypeTable) (pt : Point)

/-- The accesses of operands. Each borrow takes the next of the loans made at the point. -/
def operandAccesses : List Operand → List Loan → Except Miss (List Access)
  | [], _ => .ok []
  | .copy p :: ops, ls => do
    let more ← operandAccesses ops ls
    return .read p :: more
  | .move p :: ops, ls => do
    let more ← operandAccesses ops ls
    return f.moveAccess types p :: more
  | .ref p _ :: ops, l :: ls => do
    let more ← operandAccesses ops ls
    return .borrow p l :: more
  | .ref _ _ :: _, [] => .error (.issued pt)
  | .literal _ :: ops, ls => operandAccesses ops ls

/-- The accesses of a value: what it clones, then its operands. -/
def valueAccesses (v : Value) (issued : List Loan) : Except Miss (List Access) := do
  let more ← operandAccesses f types pt v.operands issued
  return v.cloned?.toList.map .read ++ more

/-- The accesses of a statement, the write last. The loan of a borrow is the next one made at the point. -/
def accesses (issued : List Loan) : Statement → Except Miss (List Access)
  | .assign d v => do
    let first ← valueAccesses f types pt v issued
    return first ++ [.write d]
  | .eval v => valueAccesses f types pt v issued
  | .borrow d p _ => do
    let l ← found (.issued pt) issued.head?
    return [.borrow p l, .write d]
  | .move d p => .ok [f.moveAccess types p, .write d]
  | .drop _ => .ok []

end Accesses

section AccessesMiss

variable {f : Function} {types : TypeTable} {pt : Point}

theorem operandAccesses_eq (ops : List Operand) :
    ∀ ls : List Loan, ls.length = (Function.operandBorrows ops).length →
      operandAccesses f types pt ops ls = .ok (f.operandAccesses types ops ls) := by
  induction ops with
  | nil => exact fun _ _ => rfl
  | cons o ops ih =>
    intro ls h
    cases o with
    | copy p =>
      rw [operandAccesses, ih ls h]
      rfl
    | move p =>
      rw [operandAccesses, ih ls h]
      rfl
    | literal v => exact ih ls h
    | ref p k =>
      cases ls with
      | nil => cases h
      | cons l ls =>
        rw [operandAccesses, ih ls (Nat.succ.inj h)]
        rfl

theorem valueAccesses_eq {v : Value} {issued : List Loan}
    (h : issued.length = (Function.operandBorrows v.operands).length) :
    valueAccesses f types pt v issued = .ok (f.valueAccesses types v issued) := by
  rw [valueAccesses, operandAccesses_eq _ issued h]
  rfl

/-- **Every borrow of a statement gets its loan.** -/
theorem accesses_eq {tracked : Names} {s : Statement} {issued : List Loan}
    (h : issued.length = (f.borrows types tracked s).length) :
    accesses f types pt issued s = .ok (f.accesses types issued s) := by
  cases s with
  | assign d v =>
    rw [Function.borrows, List.length_map] at h
    rw [accesses, valueAccesses_eq h]
    rfl
  | eval v =>
    rw [Function.borrows, List.length_map] at h
    exact valueAccesses_eq h
  | borrow d p k =>
    obtain ⟨l, rfl⟩ := List.length_eq_one_iff.mp h
    rfl
  | move d p => rfl
  | drop p => rfl

/-- A borrow at a point where no loan is made gets none. -/
example (d p : Place) (k : LoanKind) : accesses f types pt [] (.borrow d p k) = .error (.issued pt) := rfl

end AccessesMiss

/-! ## 2. Accesses against loans -/

section Conflicts

variable (facts : LoanFacts) (pt : Point)

/-- The loans that reach the point and are held by one of the roots. -/
def heldIn (roots : Names) : Except Miss (List Loan) := do
  let loans ← select facts.loans (facts.reaching pt)
  return loans.filter fun x => x.isHeldIn roots

/-- The loans in use before the point. -/
def activeBefore : Except Miss (List Loan) := heldIn facts pt (facts.live.liveBefore pt)

/-- The loans in use behind the point. -/
def activeAfter : Except Miss (List Loan) := heldIn facts pt (facts.live.liveAfter pt \ facts.killed pt)

/-- The loans that the return place holds at the point. -/
def escaping : Except Miss (List Loan) := do
  let loans ← select facts.loans (facts.reaching pt)
  return loans.filter fun x => x.holder == some facts.result

/-- The conflicts of one access with the loans in use, those of the same statement among them. -/
def accessConflicts (here : List Loan) (seen : Pairs) : Access → Except Miss (List Conflict × Pairs)
  | .read p => do
    let inUse ← activeBefore facts pt
    return ((inUse ++ here).filter (fun l => l.isTouched p && l.kind == .unique) |>.map (.read pt p), seen)
  | .move p => do
    let inUse ← activeBefore facts pt
    return ((inUse ++ here).filter (fun l => l.isTouched p) |>.map (.moved pt p), seen)
  | .borrow _ new => do
    let inUse ← activeBefore facts pt
    return borrowConflicts pt new (inUse ++ here) seen
  | .write p => do
    let inUse ← activeAfter facts pt
    return (inUse.filter (fun l => l.isOverwritten p) |>.map (.written pt p), seen)

/-- The conflicts of several accesses; a loan that one of them makes is in use for the rest. -/
def accessesConflicts : (here : List Loan) → List Access → Pairs → Except Miss (List Conflict × Pairs)
  | _, [], seen => .ok ([], seen)
  | here, a :: as, seen => do
    let first ← accessConflicts facts pt here seen a
    let more ← accessesConflicts (here ++ a.loan?.toList) as first.2
    return (first.1 ++ more.1, more.2)

/-- The conflicts where a frame's storage ends. -/
def exitConflicts (fr : Frame) : Except Miss (List Conflict) :=
  match fr.kind with
  | .function => do
    let loans ← escaping facts pt
    return loans.filter (fun l => fr.owns l.place) |>.map (.escaping pt fr.name)
  | .drop => do
    let loans ← activeAfter facts pt
    return loans.filter (fun l => fr.owns l.place && !fr.places.any fun p => p.isBehind l.place)
      |>.map (.dropped pt)

end Conflicts

/-- The conflicts at several points, every pair of loans reported once. -/
def pointsConflicts (facts : LoanFacts) :
    List (Point × List Access) → Pairs → Except Miss (List Conflict × Pairs)
  | [], seen => .ok ([], seen)
  | x :: rest, seen => do
    let first ← accessesConflicts facts x.1 [] x.2 seen
    let more ← pointsConflicts facts rest first.2
    return (first.1 ++ more.1, more.2)

section ConflictsMiss

variable {facts : LoanFacts} {pt : Point}

theorem heldIn_eq (h : Listed facts.loans (facts.reaching pt)) (roots : Names) :
    heldIn facts pt roots = .ok (facts.heldIn pt roots) := by
  rw [heldIn, select_eq h]
  rfl

theorem accessConflicts_eq (h : Listed facts.loans (facts.reaching pt)) (here : List Loan) (seen : Pairs)
    (a : Access) :
    accessConflicts facts pt here seen a = .ok (Ownership.accessConflicts facts pt here seen a) := by
  cases a with
  | write p =>
    rw [accessConflicts, activeAfter, heldIn_eq h]
    rfl
  | read p =>
    rw [accessConflicts, activeBefore, heldIn_eq h]
    rfl
  | move p =>
    rw [accessConflicts, activeBefore, heldIn_eq h]
    rfl
  | borrow p new =>
    rw [accessConflicts, activeBefore, heldIn_eq h]
    rfl

theorem accessesConflicts_eq (h : Listed facts.loans (facts.reaching pt)) (as : List Access) :
    ∀ here seen, accessesConflicts facts pt here as seen =
      .ok (Ownership.accessesConflicts facts pt here as seen) := by
  induction as with
  | nil => exact fun _ _ => rfl
  | cons a as ih =>
    intro here seen
    obtain ⟨hfound, hseen⟩ := @Ownership.accessesConflicts_cons facts pt here a as seen
    rw [accessesConflicts, accessConflicts_eq h, ok_bind, ih, ok_bind, pure_eq_ok]
    exact congrArg Except.ok (Prod.ext hfound.symm hseen.symm)

theorem pointsConflicts_eq (h : ∀ p, Listed facts.loans (facts.reaching p))
    (rows : List (Point × List Access)) :
    ∀ seen, pointsConflicts facts rows seen = .ok (Ownership.pointsConflicts facts rows seen) := by
  induction rows with
  | nil => exact fun _ => rfl
  | cons x rows ih =>
    intro seen
    rw [pointsConflicts, accessesConflicts_eq (h x.1), ok_bind, ih]
    rfl

theorem exitConflicts_eq (h : Listed facts.loans (facts.reaching pt)) (fr : Frame) :
    exitConflicts facts pt fr = .ok (Ownership.exitConflicts facts fr pt) := by
  unfold exitConflicts Ownership.exitConflicts
  cases fr.kind with
  | function =>
    dsimp only
    rw [escaping, select_eq h]
    rfl
  | drop =>
    dsimp only
    rw [activeAfter, heldIn_eq h]
    rfl

end ConflictsMiss

/-! ## 3. All checks -/

section Checks

variable (f : Function) (g : Graph) (types : TypeTable)

/-- Where block `b` returns, if it does. -/
def returnOf (b : Nat) : Except Miss (Option Point) := do
  let block ← block f b
  return if block.terminator = .ret then some ⟨b, block.statements.length⟩ else none

/-- The frames of what block `b` drops, each named after what is dropped. -/
def dropsIn (b : Nat) : Except Miss (List Frame) := do
  let statements ← statementsOf f b
  let drops := statements.filterMap Function.dropFrame?
  written (drops.all fun fr => fr.places.all Place.renders) drops

/-- The frame of the call, then those of what is dropped. -/
def frames : Except Miss (List Frame) := do
  let exits ← g.reachable.mapM (returnOf f)
  let drops ← g.reachable.mapM (dropsIn f)
  return ⟨.function, f.name, f.frameRoots, exits.filterMap id⟩ :: drops.flatten

/-- The accesses of a statement with its point. -/
def accessRow (facts : LoanFacts) (x : Statement × Point) : Except Miss (Point × List Access) := do
  let as ← accesses f types x.2 (facts.issued x.2) x.1
  return (x.2, as)

/-- The accesses of block `b`, point by point. -/
def accessRows (facts : LoanFacts) (b : Nat) : Except Miss (List (Point × List Access)) := do
  let block ← block f b
  let statements ← statementsOf f b
  let rows ← statements.mapM (accessRow f types facts)
  return rows ++ [(⟨b, block.statements.length⟩, block.terminator.accesses)]

/-- The conflicts at all ends of a frame's storage. -/
def frameConflicts (facts : LoanFacts) (fr : Frame) : Except Miss (List Conflict) := do
  let rows ← fr.exits.mapM fun pt => exitConflicts facts pt fr
  return rows.flatten

/-- The conflicts of all checks, each told with the places that it is about. -/
def detect (moves : MoveFacts) (loans : LoanFacts) (frames : List Frame) : Except Miss (List Conflict) := do
  let rows ← g.reachable.mapM (accessRows f types loans)
  let accessed ← pointsConflicts loans rows.flatten []
  let ended ← frames.mapM (frameConflicts loans)
  let conflicts := moves.events.map .missing ++ accessed.1 ++ ended.flatten
  written (conflicts.all Conflict.renders) conflicts

end Checks

section ChecksMiss

variable {f : Function} {types : TypeTable} {facts : LoanFacts}

section Frames

variable {short : Prop} (hshort : short → f.Writable)

include hshort

theorem dropsIn_gives {b : Nat} (hb : b < f.blocks.length) :
    Gives short (dropsIn f b) ((f.statementsOf b).filterMap Function.dropFrame?) := by
  rw [dropsIn, statementsOf_eq hb, ok_bind]
  refine gives_written (fun hs => List.all_eq_true.mpr fun fr hfr => ?_) _
  obtain ⟨⟨s, pt⟩, hmem, hframe⟩ := List.mem_filterMap.mp hfr
  obtain ⟨hblock, hs'⟩ := Function.block_of_statementAt? (Function.mem_statementsOf.mp hmem).2
  cases s with
  | drop p =>
    simp only [Function.dropFrame?] at hframe
    split_ifs at hframe
    cases hframe
    have hp : p ∈ f.places := Function.mem_places.mpr ⟨_, hblock, Or.inl ⟨_, hs', List.mem_cons_self⟩⟩
    simpa using (hshort hs).renders hp
  | _ => cases hframe

theorem frames_gives (hf : f.WellFormed) : Gives short (frames f f.graph) (f.frames f.graph) := by
  have hlt : ∀ b ∈ f.graph.reachable, b < f.blocks.length := fun b hb =>
    hf.order_lt (hf.graph_sound.mem_reachable.mp hb)
  have hexits : f.graph.reachable.mapM (returnOf f) = .ok (f.graph.reachable.map fun b =>
      if (f.block b).terminator = .ret then some (f.exitOf b) else none) := by
    refine mapM_ok fun b hb => ?_
    rw [returnOf, block_eq (hlt b hb)]
    rfl
  rw [frames, hexits, ok_bind]
  refine (mapM_gives fun b hb => dropsIn_gives hshort (hlt b hb)).bind (.of_eq ?_)
  rw [List.filterMap_map, ← List.flatMap_def]
  rfl

end Frames

theorem accessRow_eq {tracked : Names} (h : LoanTable (f.issueLoans types tracked f.graph) facts.loans)
    {b : Nat} (hb : b ∈ f.graph.reachable) {x : Statement × Point} (hx : x ∈ f.statementsOf b) :
    accessRow f types facts x = .ok (x.2, f.accesses types (facts.issued x.2) x.1) := by
  obtain ⟨hblock, hs⟩ := Function.mem_statementsOf.mp hx
  have hlength : (facts.issued x.2).length = (f.borrows types tracked x.1).length := by
    rw [LoanFacts.issued, h.issuedAtPoint_eq]
    exact Function.issued_length (hblock ▸ hb) hs
  rw [accessRow, accesses_eq hlength]
  rfl

theorem accessRows_eq (hf : f.WellFormed) {tracked : Names}
    (h : LoanTable (f.issueLoans types tracked f.graph) facts.loans) {b : Nat}
    (hb : b ∈ f.graph.reachable) :
    accessRows f types facts b = .ok ((f.statementsOf b).map
      (fun x => (x.2, f.accesses types (facts.issued x.2) x.1)) ++
        [(f.exitOf b, (f.block b).terminator.accesses)]) := by
  have hlt := hf.order_lt (hf.graph_sound.mem_reachable.mp hb)
  rw [accessRows, block_eq hlt, ok_bind, statementsOf_eq hlt, ok_bind,
    mapM_ok fun x hx => accessRow_eq h hb hx]
  rfl

theorem frameConflicts_eq (h : ∀ p, Listed facts.loans (facts.reaching p)) (fr : Frame) :
    frameConflicts facts fr = .ok (fr.exits.flatMap (Ownership.exitConflicts facts fr)) := by
  rw [frameConflicts, mapM_ok fun pt _ => exitConflicts_eq (h pt) fr, List.flatMap_def]
  rfl

/-- **The checks miss nothing**: no loan, no block, and no loan for a borrow. -/
theorem detect_gives {short : Prop} (hf : f.WellFormed) {tracked : Names}
    (htable : LoanTable (f.issueLoans types tracked f.graph) facts.loans)
    (hlisted : ∀ p, Listed facts.loans (facts.reaching p)) {moves : MoveFacts} {frames : List Frame}
    (hshort : short → ∀ c ∈ f.detect f.graph types moves facts frames, c.renders = true) :
    Gives short (detect f f.graph types moves facts frames)
      (f.detect f.graph types moves facts frames) := by
  rw [detect, mapM_ok fun b hb => accessRows_eq hf htable hb, ok_bind, pointsConflicts_eq hlisted, ok_bind,
    mapM_ok fun fr _ => frameConflicts_eq hlisted fr, ok_bind, ← List.flatMap_def, ← List.flatMap_def]
  exact gives_written (fun hs => List.all_eq_true.mpr (hshort hs)) _

end ChecksMiss

end Checked

end Ownership
