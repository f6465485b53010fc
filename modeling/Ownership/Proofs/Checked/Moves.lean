import Ownership.Proofs.Checked.Graph
import Ownership.Proofs.Checked.Written

/-!
# The move pass, with checked lookups

The pass looks up the variables of indices, the reference that a write goes through, the blocks it
visits and their neighbours. Validation has seen to the first (`Function.Valid`), a write asks for a
reference only where there is a dereference (`Place.findIdx?_deref`), and blocks are visited only if
they are in the order of the graph.

A read of something that is partly gone puts the gone paths in order, and writes them out for that.

* `Checked.blockEffects_eq`: the effects of a block are read without a miss;
* `Checked.beyond_eq`: so are the blocks beyond a block, dead blocks included;
* `Checked.applyRows_gives`: the effects are carried out, unless a gone path cannot be written out;
* `Checked.trackMoves_gives`: the pass as a whole.
-/

namespace Ownership

open Std

/-! ## 1. What validation has seen to -/

/-- What the passes rely on when they look things up: jumps go to blocks, the roots and index
    variables of all places are declared, and the return place is a whole root. -/
structure Function.Valid (f : Function) : Prop where
  wellFormed : f.WellFormed
  closed : f.Closed
  whole : f.result.path = []

theorem Function.Valid.result {f : Function} (hv : f.Valid) : f.locals.Covers f.result := by
  refine ⟨hv.wellFormed.result, fun v hm => ?_⟩
  rw [Place.indexVars, hv.whole] at hm
  cases hm

theorem Draft.valid_of_validate {d : Draft} {types : TypeTable} {f : Function}
    (h : d.validate types = .ok f) : f.Valid := by
  refine ⟨wellFormed_of_validate h, closed_of_validate h, ?_⟩
  obtain ⟨_, hhead, h⟩ := bind_eq_ok.mp h
  obtain ⟨_, _, h⟩ := bind_eq_ok.mp h
  cases h
  obtain ⟨_, _, h⟩ := bind_eq_ok.mp (located_eq_ok.mp hhead)
  obtain ⟨_, _, h⟩ := bind_eq_ok.mp h
  obtain ⟨_, _, h⟩ := bind_eq_ok.mp h
  obtain ⟨_, _, h⟩ := bind_eq_ok.mp h
  obtain ⟨_, hwhole, _⟩ := bind_eq_ok.mp h
  exact List.isEmpty_iff.mp (require_eq_ok.mp hwhole)

theorem Function.size_graph {f : Function} : f.graph.size = f.blocks.length :=
  (List.length_map _).trans (List.length_map _)

theorem Function.WellFormed.order_lt {f : Function} (hf : f.WellFormed) {b : Nat}
    (hb : b ∈ f.graph.order) : b < f.blocks.length :=
  (hf.graph_sound.bound b hb).trans_eq Function.size_graph

theorem Function.WellFormed.succsOf_lt {f : Function} (hf : f.WellFormed) {b t : Nat}
    (ht : t ∈ f.graph.succsOf b) : t < f.blocks.length := by
  have hlt := hf.targets_lt b t (Graph.mem_succsOf.mp ht)
  rw [List.length_map] at hlt
  exact hlt

/-- The first dereference of a path, and the steps before it. -/
theorem Place.findIdx?_deref {p : Place} (h : p.hasDeref = true) :
    ∃ i, p.path.findIdx? Projection.isDeref = some i ∧ p.path.take i = p.directPath := by
  obtain ⟨root, path⟩ := p
  replace h : path.any Projection.isDeref = true := h
  show ∃ i, path.findIdx? Projection.isDeref = some i ∧
    path.take i = path.takeWhile fun s => !s.isDeref
  induction path with
  | nil => cases h
  | cons s path ih =>
    by_cases hs : s.isDeref = true
    · exact ⟨0, by rw [List.findIdx?_cons, if_pos hs], by
        rw [List.take_zero, List.takeWhile_cons_of_neg (by rw [hs]; exact Bool.false_ne_true)]⟩
    · rw [Bool.not_eq_true] at hs
      rw [List.any_cons, hs, Bool.false_or] at h
      obtain ⟨i, hi, htake⟩ := ih h
      refine ⟨i + 1, ?_, ?_⟩
      · rw [List.findIdx?_cons, hs, hi]
        rfl
      · rw [List.take_succ_cons, List.takeWhile_cons_of_pos (by rw [hs]; rfl), htake]

theorem Locals.Covers.carrier {ls : Locals} {p : Place} (h : ls.Covers p) : ls.Covers p.carrier := by
  refine ⟨h.root, fun v hv => h.vars v ?_⟩
  exact (List.Sublist.filterMap _ (List.takeWhile_sublist _)).subset hv

namespace Checked

/-! ## 2. Effects -/

section Effects

variable (f : Function) (types : TypeTable)

/-- A block by number. -/
def block (b : Nat) : Except Miss Block := found (.block b) f.blocks[b]?

/-- The variables of the indices are used. -/
def indexReads (p : Place) : Except Miss (List Effect) :=
  p.indexVars.mapM fun v => do
    let decl ← found (.root v) (f.locals.get? v)
    return .read ⟨decl.root, []⟩ .use

/-- A place is read, after the variables of its indices. -/
def readEffects (p : Place) (action : Action) : Except Miss (List Effect) := do
  let first ← indexReads f p
  return first ++ [.read p action]

/-- A place is taken if its value can be moved, and read otherwise. -/
def moveEffects (p : Place) : Except Miss (List Effect) :=
  if f.isMovable types p then do
    let first ← readEffects f p .move
    return first ++ [.take p]
  else readEffects f p .use

/-- Writing through a reference uses the reference, which stands before the first dereference. -/
def writeEffects (p : Place) : Except Miss (List Effect) := do
  let first ← indexReads f p
  if p.hasDeref then do
    let i ← found (.deref p) (p.path.findIdx? Projection.isDeref)
    let reads ← readEffects f ⟨p.root, p.path.take i⟩ .use
    return first ++ reads
  else return first ++ [.fill p]

/-- What the evaluation of an operand does. -/
def operandEffects : Operand → Except Miss (List Effect)
  | .copy p => readEffects f p .use
  | .move p => moveEffects f types p
  | .ref p _ => readEffects f p .borrow
  | .literal _ => .ok []

/-- What the evaluation of a value does, operand by operand. -/
def valueEffects : Value → Except Miss (List Effect)
  | .clone p => readEffects f p .use
  | v => do
    let effects ← v.operands.mapM (operandEffects f types)
    return effects.flatten

/-- What a statement does: its reads, then its write. -/
def statementEffects : Statement → Except Miss (List Effect)
  | .assign d v => do
    let reads ← valueEffects f types v
    let writes ← writeEffects f d
    return reads ++ writes
  | .borrow d p _ => do
    let reads ← readEffects f p .borrow
    let writes ← writeEffects f d
    return reads ++ writes
  | .move d p => do
    let moves ← moveEffects f types p
    let writes ← writeEffects f d
    return moves ++ writes
  | .drop p => .ok (if p.hasDeref then [] else [.release p])
  | .eval v => valueEffects f types v

/-- A branch evaluates its condition, and a return reads the return place if it is ever written. -/
def terminatorEffects : Terminator → Except Miss (List Effect)
  | .branch c _ _ => operandEffects f types c
  | .ret => if f.writesResult then readEffects f f.result .use else .ok []
  | .goto _ | .unreachable => .ok []

/-- The statements of a block with their points. -/
def statementsOf (b : Nat) : Except Miss (List (Statement × Point)) := do
  let block ← block f b
  return block.statements.zipIdx.map fun x => (x.1, ⟨b, x.2⟩)

/-- What the points of block `b` do, the terminator last. -/
def blockEffects (b : Nat) : Except Miss (List (Point × List Effect)) := do
  let block ← block f b
  let statements ← statementsOf f b
  let body ← statements.mapM fun x => do
    let effects ← statementEffects f types x.1
    return (x.2, effects)
  let last ← terminatorEffects f types block.terminator
  return body ++ [(⟨b, block.statements.length⟩, last)]

end Effects

section Read

variable {f : Function} {types : TypeTable}

theorem indexReads_eq {p : Place} (h : f.locals.Covers p) : indexReads f p = .ok (f.indexReads p) := by
  refine mapM_ok fun v hv => ?_
  obtain ⟨decl, hd⟩ := h.vars v hv
  have hroot : f.rootOf v = ⟨decl.root, []⟩ := by
    rw [Function.rootOf, Locals.rootOf, hd]
    rfl
  rw [hd, hroot]
  rfl

theorem readEffects_eq {p : Place} (h : f.locals.Covers p) (action : Action) :
    readEffects f p action = .ok (f.readEffects p action) := by
  rw [readEffects, indexReads_eq h]
  rfl

theorem moveEffects_eq {p : Place} (h : f.locals.Covers p) :
    moveEffects f types p = .ok (f.moveEffects types p) := by
  unfold moveEffects Function.moveEffects
  split_ifs
  · rw [readEffects_eq h]
    rfl
  · exact readEffects_eq h _

theorem writeEffects_eq {p : Place} (h : f.locals.Covers p) :
    writeEffects f p = .ok (f.writeEffects p) := by
  rw [writeEffects, indexReads_eq h, ok_bind, Function.writeEffects]
  split_ifs with hderef
  · obtain ⟨i, hi, htake⟩ := Place.findIdx?_deref hderef
    have hcarrier : (⟨p.root, p.path.take i⟩ : Place) = p.carrier := by rw [htake]; rfl
    rw [hi, found_some, ok_bind, hcarrier, readEffects_eq h.carrier]
    rfl
  · rfl

theorem operandEffects_eq {o : Operand} (h : ∀ p ∈ o.place?.toList, f.locals.Covers p) :
    operandEffects f types o = .ok (f.operandEffects types o) := by
  cases o with
  | copy p => exact readEffects_eq (h p List.mem_cons_self) _
  | move p => exact moveEffects_eq (h p List.mem_cons_self)
  | ref p k => exact readEffects_eq (h p List.mem_cons_self) _
  | literal v => rfl

theorem valueEffects_eq {v : Value} (h : ∀ p ∈ v.places, f.locals.Covers p) :
    valueEffects f types v = .ok (f.valueEffects types v) := by
  have hops : v.operands.mapM (operandEffects f types) =
      .ok (v.operands.map (f.operandEffects types)) := by
    refine mapM_ok fun o ho => operandEffects_eq fun p hp => h p (List.mem_append_right _ ?_)
    exact List.mem_filterMap.mpr ⟨o, ho, Option.mem_toList.mp hp⟩
  cases v with
  | clone p => exact readEffects_eq (h p List.mem_cons_self) _
  | _ => exact (congrArg (fun r => r >>= _) hops).trans (congrArg Except.ok List.flatMap_def.symm)

theorem statementEffects_eq {s : Statement} (h : ∀ p ∈ s.places, f.locals.Covers p) :
    statementEffects f types s = .ok (f.statementEffects types s) := by
  have hread : ∀ p ∈ s.reads, f.locals.Covers p := fun p hp =>
    h p (List.mem_append_left _ (List.mem_append_right _ hp))
  have hdest : ∀ p, s.dest? = some p → f.locals.Covers p := fun p hp =>
    h p (List.mem_append_left _ (List.mem_append_left _ (Option.mem_toList.mpr hp)))
  cases s with
  | assign d v =>
    rw [statementEffects, valueEffects_eq hread, writeEffects_eq (hdest d rfl)]
    rfl
  | borrow d p k =>
    rw [statementEffects, readEffects_eq (hread p List.mem_cons_self), writeEffects_eq (hdest d rfl)]
    rfl
  | move d p =>
    rw [statementEffects, moveEffects_eq (hread p List.mem_cons_self), writeEffects_eq (hdest d rfl)]
    rfl
  | drop p => rfl
  | eval v => exact valueEffects_eq hread

theorem block_eq {b : Nat} (hb : b < f.blocks.length) : block f b = .ok (f.block b) := by
  rw [block, Function.block, List.getD_eq_getElem?_getD, List.getElem?_eq_getElem hb]
  rfl

theorem statementsOf_eq {b : Nat} (hb : b < f.blocks.length) :
    statementsOf f b = .ok (f.statementsOf b) := by
  rw [statementsOf, block_eq hb]
  rfl

/-- **The effects of a block are read without a miss.** -/
theorem blockEffects_eq (hv : f.Valid) {b : Nat} (hb : b < f.blocks.length) :
    blockEffects f types b = .ok (f.blockEffects types b) := by
  have hmem : f.block b ∈ f.blocks := by
    rw [Function.block, List.getD_eq_getElem?_getD, List.getElem?_eq_getElem hb]
    exact List.getElem_mem hb
  have hbody : (f.statementsOf b).mapM (fun x => do
      let effects ← statementEffects f types x.1
      return (x.2, effects)) =
      .ok ((f.statementsOf b).map fun x => (x.2, f.statementEffects types x.1)) := by
    refine mapM_ok fun x hx => ?_
    obtain ⟨y, hy, rfl⟩ := List.mem_map.mp hx
    have hs : y.1 ∈ (f.block b).statements := (List.mem_zipIdx hy).2.2 ▸ List.getElem_mem _
    rw [statementEffects_eq fun p hp => hv.closed p (Function.mem_places.mpr ⟨_, hmem, Or.inl ⟨_, hs, hp⟩⟩)]
    rfl
  have hlast : terminatorEffects f types (f.block b).terminator =
      .ok (f.terminatorEffects types (f.block b).terminator) := by
    have hplaces : ∀ p ∈ (f.block b).terminator.places, f.locals.Covers p := fun p hp =>
      hv.closed p (Function.mem_places.mpr ⟨_, hmem, Or.inr hp⟩)
    cases ht : (f.block b).terminator with
    | branch c y n => exact operandEffects_eq fun p hp => hplaces p (ht ▸ hp)
    | ret =>
      rw [terminatorEffects, Function.terminatorEffects]
      split_ifs
      · exact readEffects_eq hv.result _
      · rfl
    | goto t => rfl
    | unreachable => rfl
  rw [blockEffects, block_eq hb, ok_bind, statementsOf_eq hb, ok_bind, hbody, ok_bind, hlast]
  rfl

end Read

/-! ## 3. The pass -/

section Pass

variable (f : Function) (types : TypeTable) (g : Graph)

/-- The blocks that block `b` has an edge to. -/
def succsOf (b : Nat) : Except Miss (List Nat) := found (.block b) g.succs[b]?

/-- The blocks with an edge to block `b`. -/
def predsOf (b : Nat) : Except Miss (List Nat) := found (.block b) g.preds[b]?

/-- A set of blocks together with the successors of `b`. -/
def addSuccs (s : ExtTreeSet Nat) (b : Nat) : Except Miss (ExtTreeSet Nat) := do
  let ts ← succsOf g b
  return s.insertMany ts

/-- Add successors until there are no new ones. -/
def spread : (fuel : Nat) → ExtTreeSet Nat → Except Miss (ExtTreeSet Nat)
  | 0, s => .ok s
  | fuel + 1, s => do
    let next ← s.toList.foldlM (addSuccs g) s
    if next = s then .ok s else spread fuel next

/-- The blocks reached from `b` along at least one edge. -/
def beyond (b : Nat) : Except Miss (ExtTreeSet Nat) := do
  let ts ← succsOf g b
  spread g g.size (ExtTreeSet.ofList ts)

/-- The states before a block, from those behind the given predecessors. -/
def incoming (preds : List Nat) (outs : ExtTreeMap Nat MoveMap) (b : Nat) : MoveMap :=
  let known := (if b = 0 then [f.entryStates] else []) ++ preds.filterMap outs.get?
  match known with
  | [] => f.entryStates
  | m :: ms => ms.foldl MoveMap.join m

/-- A read puts the gone paths of its root in order, and writes out their full forms for that. -/
def orderPaths (m : MoveMap) : Effect → Except Miss Unit
  | .read p _ =>
    match m.stateOf p.name with
    | .partly gone => written (gone.toList.all Path.prints) ()
    | _ => .ok ()
  | _ => .ok ()

/-- The states after an effect. -/
def apply (m : MoveMap) (e : Effect) : Except Miss MoveMap := do
  orderPaths m e
  return e.apply m

/-- The states after the effects of several points. -/
def applyRows (m : MoveMap) (rows : List (Point × List Effect)) : Except Miss MoveMap :=
  rows.foldlM (fun m x => x.2.foldlM apply m) m

/-- Visit a block. -/
def visitMoves (b : Nat) (s : MoveStates) : Except Miss (MoveStates × List Nat) := do
  let preds ← predsOf g b
  let before := incoming f (preds.filter g.isReachable) s.outs b
  let rows ← blockEffects f types b
  let after ← applyRows before rows
  let ins := s.ins.insert b before
  if s.outs.get? b = some after then .ok (⟨ins, s.outs⟩, [])
  else do
    let succs ← succsOf g b
    return (⟨ins, s.outs.insert b after⟩, succs)

/-- The rows of a block, if it was visited. Its effects are carried out once more. -/
def moveRowsOf (ins : ExtTreeMap Nat MoveMap) (b : Nat) :
    Except Miss (List (Point × MoveMap × List Effect)) :=
  match ins.get? b with
  | some m => do
    let effects ← blockEffects f types b
    let _ ← applyRows m effects
    return pointStates m effects
  | none => .ok []

/-- Run the pass with at most `cap` block visits. The blocks beyond each block are found first; where
    they are asked for later, a block without any has none. -/
def trackMoves (cap : Nat) : Except Miss MoveFacts := do
  let _ ← (List.range g.size).mapM (beyond g)
  let out ← Worklist.runChecked g.order (visitMoves f types g) cap [0] f.firstMoves 0
  let sites := f.moveSites types
  let rows ← g.order.mapM (moveRowsOf f types out.state.ins)
  return { before := rows.flatten.foldl (fun t x => t.insert x.1 x.2.1) ∅,
           events := rows.flatten.flatMap fun x =>
             (Effect.trace x.2.1 x.2.2).filterMap fun t => eventOf? g sites x.1 t.1 t.2,
           moves := rows.flatten.flatMap fun x => x.2.2.filterMap fun
             | .take p => some (x.1, p)
             | _ => none,
           converged := out.converged, visits := out.visits }

end Pass

section Run

variable {f : Function} {types : TypeTable}

theorem succsOf_eq {b : Nat} (hb : b < f.blocks.length) :
    succsOf f.graph b = .ok (f.graph.succsOf b) := by
  have hlt : b < f.graph.succs.length := hb.trans_eq Function.size_graph.symm
  rw [succsOf, getElem?_eq_getD hlt]
  rfl

theorem predsOf_eq {b : Nat} (hb : b < f.blocks.length) :
    predsOf f.graph b = .ok (f.graph.predsOf b) := by
  have hlt : b < f.graph.preds.length := by
    rw [Function.graph, Graph.length_preds, List.length_map]
    exact hb
  rw [predsOf, getElem?_eq_getD hlt]
  rfl

theorem spread_eq (hf : f.WellFormed) (fuel : Nat) {s : ExtTreeSet Nat}
    (hs : ∀ b ∈ s, b < f.blocks.length) : spread f.graph fuel s = .ok (f.graph.spread fuel s) := by
  induction fuel generalizing s with
  | zero => rfl
  | succ fuel ih =>
    obtain ⟨hnext, hlt⟩ : s.toList.foldlM (addSuccs f.graph) s =
        .ok (s.toList.foldl (fun t b => t.insertMany (f.graph.succsOf b)) s) ∧
        ∀ b ∈ s.toList.foldl (fun t b => t.insertMany (f.graph.succsOf b)) s, b < f.blocks.length := by
      refine foldlM_ok (fun t : ExtTreeSet Nat => ∀ b ∈ t, b < f.blocks.length) (fun t ht b hb => ?_) hs
      rw [addSuccs, succsOf_eq (hs b (ExtTreeSet.mem_toList.mp hb))]
      refine ⟨rfl, fun c hc => ?_⟩
      rcases ExtTreeSet.mem_insertMany_list.mp hc with hc | hc
      · exact ht c hc
      · exact hf.succsOf_lt (List.contains_iff_mem.mp hc)
    rw [spread, hnext, ok_bind, Graph.spread]
    split_ifs
    · rfl
    · exact ih hlt

/-- The blocks beyond a block are found, whether the block is dead or not. -/
theorem beyond_eq (hf : f.WellFormed) {b : Nat} (hb : b < f.blocks.length) :
    beyond f.graph b = .ok (f.graph.beyond b) := by
  rw [beyond, succsOf_eq hb, ok_bind]
  refine spread_eq hf _ fun c hc => ?_
  exact hf.succsOf_lt (List.contains_iff_mem.mp (ExtTreeSet.mem_ofList.mp hc))

section Writing

variable {short : Prop} (hshort : short → f.Writable)

include hshort

theorem apply_gives {m : MoveMap} (hm : m.Bounded f) (e : Effect) : Gives short (apply m e) (e.apply m) := by
  have horder : Gives short (orderPaths m e) () := by
    cases e with
    | read p a =>
      rw [orderPaths]
      split
      · rename_i gone hgone
        refine gives_written (fun hs => List.all_eq_true.mpr fun q hq => (hshort hs).gonePaths ?_) ()
        refine hm.gone p.name q ?_
        rw [hgone]
        exact ExtTreeSet.mem_toList.mp hq
      · exact .of_eq rfl
    | take p => exact .of_eq rfl
    | release p => exact .of_eq rfl
    | fill p => exact .of_eq rfl
  exact horder.bind (.of_eq rfl)

/-- **The effects of a block are carried out**, unless a gone path cannot be written out. -/
theorem applyRows_gives (hc : f.Closed) (types : TypeTable) (b : Nat) {m : MoveMap} (hm : m.Bounded f) :
    Gives short (applyRows m (f.blockEffects types b)) (f.outgoing types b m) := by
  refine (foldlM_gives (MoveMap.Bounded f) (fun m hm x hx => ?_) hm).1
  rw [Function.blockEffects_eq] at hx
  obtain ⟨p, _, rfl⟩ := List.mem_map.mp hx
  refine foldlM_gives (MoveMap.Bounded f) (fun m hm e he => ⟨apply_gives hshort hm e, ?_⟩) hm
  exact hm.apply hc (Effect.AllFrom.effectsAt f types p e he)

theorem visitMoves_gives (hv : f.Valid) (types : TypeTable) {b : Nat} (hb : b ∈ f.graph.order)
    {s : MoveStates} (hs : s.Bounded f) :
    Gives short (visitMoves f types f.graph b s) (f.visitMoves f.graph types b s) := by
  have hlt := hv.wellFormed.order_lt hb
  rw [visitMoves, predsOf_eq hlt, ok_bind, blockEffects_eq hv hlt, ok_bind]
  refine (applyRows_gives hshort hv.closed types b (Function.incoming_bounded hs b)).bind (.of_eq ?_)
  rw [succsOf_eq hlt]
  show (if s.outs.get? b = some (f.outgoing types b (f.incoming f.graph s.outs b)) then _ else _) = _
  rw [Function.visitMoves]
  split_ifs <;> rfl

theorem runMoves_gives (hv : f.Valid) (types : TypeTable) (cap : Nat) :
    Gives short (Worklist.runChecked f.graph.order (visitMoves f types f.graph) cap [0] f.firstMoves 0)
      (Worklist.run f.graph.order (f.visitMoves f.graph types) cap [0] f.firstMoves 0) := by
  have hg := hv.wellFormed.graph_sound
  refine (Worklist.runChecked_single (MoveStates.Bounded f) short hg.nodup (fun b hb s hs => ?_) cap
    hg.entry f.firstMoves_bounded 0).1
  exact ⟨visitMoves_gives hshort hv types hb hs, Function.visitMoves_bounded hv.closed hs b,
    fun c hc => hg.closed b hb c (Worklist.mem_of_woken hc)⟩

theorem moveRowsOf_gives (hv : f.Valid) (types : TypeTable) (cap : Nat) {b : Nat} (hb : b ∈ f.graph.order) :
    Gives short (moveRowsOf f types (f.lastMoves types cap).ins b) (f.moveRowsOf types cap b) := by
  have hbounded := (Function.lastMoves_bounded hv.closed types cap).ins b
  rw [moveRowsOf, Function.moveRowsOf, blockEffects_eq hv (hv.wellFormed.order_lt hb)]
  cases hm : (f.lastMoves types cap).ins.get? b with
  | none => exact .of_eq rfl
  | some m =>
    exact (applyRows_gives hshort hv.closed types b (hbounded m hm)).bind (.of_eq rfl)

/-- **The move pass misses nothing**, and stops early only if a path cannot be written out. -/
theorem trackMoves_gives (hv : f.Valid) (types : TypeTable) (cap : Nat) :
    Gives short (trackMoves f types f.graph cap) (f.trackMoves f.graph types cap) := by
  have hbeyond : (List.range f.graph.size).mapM (beyond f.graph) =
      .ok ((List.range f.graph.size).map f.graph.beyond) :=
    mapM_ok fun b hb => beyond_eq hv.wellFormed ((List.mem_range.mp hb).trans_eq Function.size_graph)
  rw [trackMoves, hbeyond, ok_bind]
  refine (runMoves_gives hshort hv types cap).bind ?_
  refine (mapM_gives fun b hb => moveRowsOf_gives hshort hv types cap hb).bind (.of_eq ?_)
  rw [← List.flatMap_def]
  rfl

end Writing

end Run

end Checked

end Ownership
