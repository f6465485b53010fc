import Ownership.Proofs.Checked.Lookup
import Ownership.Proofs.Collections
import Ownership.Proofs.Flow.Route

/-!
# The flow graph, with checked lookups

Building the graph of a draft reads the terminator of every block, enters every edge at its target,
looks up the edges of every block that the walk opens, and asks for the dominators of blocks while
they are being found. None of this misses for the draft of a well-formed function
(`Checked.graph_draft`):

* a walk only opens blocks that edges lead to, and those are in range (`Checked.walk_eq`);
* there is a dominator set for every block of the order, and it has members of the order only
  (`SetsListed`); every sweep keeps it that way (`Checked.compute_eq`).
-/

namespace Ownership

open Std

namespace Checked

/-! ## 1. The walk -/

/-- Follow the next edge of the innermost open block, or finish it; the edges of a block that is
    opened are looked up. -/
def step (succs : List (List Nat)) (w : DepthFirst.Walk) : Except Miss DepthFirst.Walk :=
  match w.stack with
  | [] => .ok w
  | (b, []) :: rest => .ok { w with stack := rest, finished := b :: w.finished }
  | (b, s :: ss) :: rest =>
    if w.stack.any fun frame => frame.1 == s then
      .ok { w with stack := (b, ss) :: rest, retreating := (b, s) :: w.retreating }
    else if w.seen.contains s then
      .ok { w with stack := (b, ss) :: rest }
    else do
      let edges ← found (.block s) succs[s]?
      return { w with stack := (s, edges) :: (b, ss) :: rest, seen := s :: w.seen }

/-- The given number of steps. -/
def steps (succs : List (List Nat)) : Nat → DepthFirst.Walk → Except Miss DepthFirst.Walk
  | 0, w => .ok w
  | n + 1, w => do
    let next ← step succs w
    steps succs n next

/-- The walk from the first block, with a step for every edge and every block. -/
def walk (succs : List (List Nat)) : Except Miss DepthFirst.Walk := do
  let edges ← found (.block 0) succs[0]?
  steps succs (succs.flatten.length + succs.length) { stack := [(0, edges)], seen := [0] }

variable {l : List (List Nat)}

theorem getElem?_eq_getD {b : Nat} (hb : b < l.length) : l[b]? = some (l.getD b []) := by
  rw [List.getD_eq_getElem?_getD, List.getElem?_eq_getElem hb]
  rfl

theorem step_eq (hin : ∀ b, ∀ s ∈ l.getD b [], s < l.length) {w : DepthFirst.Walk}
    (h : w.Sound (fun b => l.getD b []) l.length) : step l w = .ok (w.step fun b => l.getD b []) := by
  unfold step DepthFirst.Walk.step
  cases hw : w.stack with
  | nil => rfl
  | cons frame rest =>
    obtain ⟨b, _ | ⟨s, ss⟩⟩ := frame
    · rfl
    · have hs : l[s]? = some (l.getD s []) := getElem?_eq_getD (hin b s (h.edge hw).2)
      simp only [hs, found_some, ok_bind, pure_eq_ok]
      split_ifs <;> rfl

theorem steps_eq (hin : ∀ b, ∀ s ∈ l.getD b [], s < l.length) (n : Nat) {w : DepthFirst.Walk}
    (h : w.Sound (fun b => l.getD b []) l.length) :
    steps l n w = .ok (w.steps (fun b => l.getD b []) n) := by
  induction n generalizing w with
  | zero => rfl
  | succ n ih =>
    rw [steps, step_eq hin h, ok_bind]
    exact ih (h.step fun b _ => hin b)

/-- **The walk opens blocks only.** -/
theorem walk_eq (h0 : 0 < l.length) (hin : ∀ b, ∀ s ∈ l.getD b [], s < l.length) :
    walk l = .ok (DepthFirst.walk l) := by
  rw [walk, getElem?_eq_getD h0, found_some, ok_bind]
  exact steps_eq hin _ (DepthFirst.sound_start h0)

/-! ## 2. Dominators -/

/-- The dominators of a block so far. -/
def domOf (sets : ExtTreeMap Nat (ExtTreeSet Nat)) (b : Nat) : Except Miss (ExtTreeSet Nat) :=
  found (.facts b) (sets.get? b)

/-- What the sets of all listed blocks have in common. -/
def meet (sets : ExtTreeMap Nat (ExtTreeSet Nat)) : List Nat → Except Miss (ExtTreeSet Nat)
  | [] => .ok ∅
  | p :: ps => do
    let first ← domOf sets p
    ps.foldlM (fun s q => do
      let t ← domOf sets q
      return s.filter t.contains) first

/-- Cut the set of one block down; the old set is looked up to see whether anything changes. -/
def refine (entry : Nat) (preds : Nat → List Nat) (sets : ExtTreeMap Nat (ExtTreeSet Nat)) (b : Nat) :
    Except Miss (ExtTreeMap Nat (ExtTreeSet Nat)) :=
  if b = entry then .ok sets
  else do
    let common ← meet sets (preds b)
    let _ ← domOf sets b
    return sets.insert b (common.insert b)

/-- Sweep over the order until nothing changes; each sweep cuts the sets down or ends it. -/
def settle (entry : Nat) (order : List Nat) (preds : Nat → List Nat) :
    (fuel : Nat) → ExtTreeMap Nat (ExtTreeSet Nat) → Except Miss (ExtTreeMap Nat (ExtTreeSet Nat))
  | 0, sets => .ok sets
  | fuel + 1, sets => do
    let next ← order.foldlM (refine entry preds) sets
    if next = sets then .ok sets else settle entry order preds fuel next

/-- The first of `cs` that all of `strict` dominate. -/
def firstParent (sets : ExtTreeMap Nat (ExtTreeSet Nat)) (strict : List Nat) :
    List Nat → Except Miss (Option Nat)
  | [] => .ok none
  | c :: cs => do
    let t ← domOf sets c
    if strict.all t.contains then .ok (some c) else firstParent sets strict cs

/-- The closest of the blocks that dominate `b` and are not `b`. -/
def parent (sets : ExtTreeMap Nat (ExtTreeSet Nat)) (b : Nat) : Except Miss (Option Nat) := do
  let s ← domOf sets b
  firstParent sets (s.erase b).toList (s.erase b).toList

/-- The parent of every block of the order; the entry has none. -/
def parents (entry : Nat) (order : List Nat) (sets : ExtTreeMap Nat (ExtTreeSet Nat)) :
    Except Miss (ExtTreeMap Nat (Option Nat)) :=
  order.foldlM (fun m b => if b = entry then .ok m else do
    let p ← parent sets b
    return m.insert b p) ((∅ : ExtTreeMap Nat (Option Nat)).insert entry none)

/-- The dominators of the blocks of the order: at first all of them, then cut down until nothing
    changes. -/
def compute (entry : Nat) (order : List Nat) (preds : Nat → List Nat) :
    Except Miss (Dominators Nat) := do
  let listed : ExtTreeSet Nat := ExtTreeSet.ofList order
  let live := fun b => (preds b).filter listed.contains
  let all := order.foldl (fun m b => m.insert b listed) (∅ : ExtTreeMap Nat (ExtTreeSet Nat))
  let start := all.insert entry ((∅ : ExtTreeSet Nat).insert entry)
  let sets ← settle entry order live (order.length * order.length + 1) start
  let parents ← parents entry order sets
  return ⟨sets, parents⟩

/-- Every block of the order has a set, with members of the order only. -/
def SetsListed (order : List Nat) (sets : ExtTreeMap Nat (ExtTreeSet Nat)) : Prop :=
  ∀ b ∈ order, ∃ s, sets.get? b = some s ∧ ∀ c ∈ s, c ∈ order

variable {order : List Nat} {sets : ExtTreeMap Nat (ExtTreeSet Nat)}

theorem domOf_eq (h : SetsListed order sets) {b : Nat} (hb : b ∈ order) :
    domOf sets b = .ok (sets.getD b ∅) ∧ ∀ c ∈ sets.getD b ∅, c ∈ order := by
  obtain ⟨s, hs, hmem⟩ := h b hb
  have hget : sets.getD b ∅ = s := by
    rw [ExtTreeMap.getD_eq_getD_getElem?]
    exact congrArg (Option.getD · ∅) hs
  rw [domOf, hs, hget]
  exact ⟨rfl, hmem⟩

theorem meet_eq (h : SetsListed order sets) {ps : List Nat} (hps : ∀ p ∈ ps, p ∈ order) :
    meet sets ps = .ok (Dominators.meet sets ps) ∧ ∀ c ∈ Dominators.meet sets ps, c ∈ order := by
  cases ps with
  | nil => exact ⟨rfl, fun c hc => absurd hc ExtTreeSet.not_mem_empty⟩
  | cons p ps =>
    obtain ⟨hp, hfirst⟩ := domOf_eq h (hps p List.mem_cons_self)
    rw [meet, hp, ok_bind]
    refine foldlM_ok (fun s : ExtTreeSet Nat => ∀ c ∈ s, c ∈ order) (fun s hs q hq => ?_) hfirst
    rw [(domOf_eq h (hps q (List.mem_cons_of_mem _ hq))).1]
    exact ⟨rfl, fun c hc => hs c (mem_filter_iff.mp hc).1⟩

theorem SetsListed.insert (h : SetsListed order sets) {b : Nat} {s : ExtTreeSet Nat}
    (hs : ∀ c ∈ s, c ∈ order) : SetsListed order (sets.insert b s) := by
  intro c hc
  by_cases e : c = b
  · subst e
    exact ⟨s, ExtTreeMap.getElem?_insert_self, hs⟩
  · obtain ⟨t, ht, hmem⟩ := h c hc
    exact ⟨t, (getElem?_insert_ne e).trans ht, hmem⟩

theorem refine_eq {preds : Nat → List Nat} (hpreds : ∀ b, ∀ p ∈ preds b, p ∈ order) (entry : Nat)
    (h : SetsListed order sets) {b : Nat} (hb : b ∈ order) :
    refine entry preds sets b = .ok (Dominators.refine entry preds sets b) ∧
      SetsListed order (Dominators.refine entry preds sets b) := by
  unfold refine Dominators.refine
  split_ifs with he
  · exact ⟨rfl, h⟩
  · obtain ⟨hmeet, hmem⟩ := meet_eq h (hpreds b)
    rw [hmeet, (domOf_eq h hb).1]
    refine ⟨rfl, h.insert fun c hc => ?_⟩
    rcases ExtTreeSet.mem_insert.mp hc with hc | hc
    · rw [← LawfulEqOrd.eq_of_compare hc]
      exact hb
    · exact hmem c hc

theorem settle_eq {preds : Nat → List Nat} (hpreds : ∀ b, ∀ p ∈ preds b, p ∈ order) (entry : Nat)
    (fuel : Nat) (h : SetsListed order sets) :
    settle entry order preds fuel sets = .ok (Dominators.settle entry order preds fuel sets) ∧
      SetsListed order (Dominators.settle entry order preds fuel sets) := by
  induction fuel generalizing sets with
  | zero => exact ⟨rfl, h⟩
  | succ fuel ih =>
    obtain ⟨hsweep, hnext⟩ : order.foldlM (refine entry preds) sets =
        .ok (Dominators.sweep entry order preds sets) ∧
        SetsListed order (Dominators.sweep entry order preds sets) :=
      foldlM_ok (SetsListed order) (fun s hs b hb => refine_eq hpreds entry hs hb) h
    rw [settle, hsweep, ok_bind, Dominators.settle]
    split_ifs
    · exact ⟨rfl, h⟩
    · exact ih hnext

theorem firstParent_eq (h : SetsListed order sets) (strict : List Nat) {cs : List Nat}
    (hcs : ∀ c ∈ cs, c ∈ order) :
    firstParent sets strict cs = .ok (cs.find? fun c => strict.all (sets.getD c ∅).contains) := by
  induction cs with
  | nil => rfl
  | cons c cs ih =>
    rw [firstParent, (domOf_eq h (hcs c List.mem_cons_self)).1, ok_bind, List.find?_cons,
      ih fun d hd => hcs d (List.mem_cons_of_mem _ hd)]
    cases strict.all (sets.getD c ∅).contains <;> rfl

theorem parent_eq (h : SetsListed order sets) {b : Nat} (hb : b ∈ order) :
    parent sets b = .ok (Dominators.parent? sets b) := by
  obtain ⟨hdom, hmem⟩ := domOf_eq h hb
  rw [parent, hdom, ok_bind]
  refine firstParent_eq h _ fun c hc => hmem c ?_
  exact (ExtTreeSet.mem_erase.mp (ExtTreeSet.mem_toList.mp hc)).2

theorem parents_eq (h : SetsListed order sets) (entry : Nat) : parents entry order sets =
    .ok (order.foldl (fun m b => if b = entry then m else m.insert b (Dominators.parent? sets b))
      ((∅ : ExtTreeMap Nat (Option Nat)).insert entry none)) := by
  refine (foldlM_ok (fun _ => True) (fun m _ b hb => ⟨?_, trivial⟩) trivial).1
  rw [parent_eq h hb]
  split_ifs <;> rfl

/-- **Dominators are asked for where they are known.** -/
theorem compute_eq {entry : Nat} (hentry : entry ∈ order) (preds : Nat → List Nat) :
    compute entry order preds = .ok (Dominators.compute entry order preds) := by
  have hlisted : ∀ c, c ∈ (ExtTreeSet.ofList order : ExtTreeSet Nat) → c ∈ order := fun c hc =>
    List.contains_iff_mem.mp (ExtTreeSet.mem_ofList.mp hc)
  have hpreds : ∀ b, ∀ p ∈ (preds b).filter (ExtTreeSet.ofList order : ExtTreeSet Nat).contains, p ∈ order :=
    fun b p hp => hlisted p (ExtTreeSet.contains_iff_mem.mp (List.mem_filter.mp hp).2)
  have hall : SetsListed order (order.foldl (fun m b => m.insert b (ExtTreeSet.ofList order))
      (∅ : ExtTreeMap Nat (ExtTreeSet Nat))) := by
    intro b hb
    exact ⟨_, (getElem?_constant order _ b).trans (if_pos hb), hlisted⟩
  have hstart := hall.insert (b := entry) (s := (∅ : ExtTreeSet Nat).insert entry) fun c hc => by
    rcases ExtTreeSet.mem_insert.mp hc with hc | hc
    · rw [← LawfulEqOrd.eq_of_compare hc]
      exact hentry
    · exact absurd hc ExtTreeSet.not_mem_empty
  obtain ⟨hsettle, hsets⟩ := settle_eq hpreds entry (order.length * order.length + 1) hstart
  simp only [compute, hsettle, ok_bind, parents_eq hsets]
  rfl

/-! ## 3. The graph -/

/-- Enter an edge from block `b` at the block it leads to. -/
def enterEdge (b : Nat) (preds : List (List Nat)) (t : Nat) : Except Miss (List (List Nat)) := do
  let _ ← found (.block t) preds[t]?
  return preds.modify t (· ++ [b])

/-- Enter all edges, block by block. -/
def enterEdges (succs : List (List Nat)) : Except Miss (List (List Nat)) :=
  succs.zipIdx.foldlM (fun preds x => x.1.foldlM (enterEdge x.2) preds) (succs.map fun _ => [])

/-- The graph of blocks that jump to the given targets. -/
def graph (targets : List (List Nat)) : Except Miss Graph := do
  let succs := targets.map List.eraseDups
  let preds ← enterEdges succs
  let walk ← walk succs
  let dominators ← compute 0 walk.finished fun b => preds.getD b []
  return { succs := succs, preds := preds, order := walk.finished, backEdges := walk.retreating,
           dominators := dominators }

/-- A jump target as it stands in a draft. -/
def target : Node → Except Miss Nat
  | .literalNode (.int (.ofNat t)) => .ok t
  | n => .error (.target n)

/-- The jump targets of block `b`, from the terminator as it stands in a draft. -/
def targets (b : Nat) : Node → Except Miss (List Nat)
  | .gotoTerminator t => do
    let t ← target t
    return [t]
  | .branchTerminator _ y n => do
    let yes ← target y
    let no ← target n
    return [yes, no]
  | .retTerminator | .unreachableTerminator => .ok []
  | _ => .error (.terminator b)

end Checked

/-- The flow graph of a draft. -/
def Draft.graphChecked (d : Draft) : Except Miss Graph := do
  let targets ← d.blocks.zipIdx.mapM fun x => Checked.targets x.2 x.1.terminator
  Checked.graph targets

namespace Checked

theorem enterEdges_eq (hin : ∀ ts ∈ l, ∀ t ∈ ts, t < l.length) :
    enterEdges l = .ok (Graph.enterEdges l) := by
  -- entering an edge changes no number of blocks
  refine (foldlM_ok (fun preds : List (List Nat) => preds.length = l.length) (fun preds hlen x hx => ?_)
    (List.length_map _)).1
  have hts := List.mem_of_getElem? (List.mem_zipIdx_iff_getElem?.mp hx)
  refine foldlM_ok (fun preds : List (List Nat) => preds.length = l.length) (fun preds hlen t ht => ?_) hlen
  have hlt : t < preds.length := (hin _ hts t ht).trans_eq hlen.symm
  rw [enterEdge, getElem?_eq_getD hlt]
  exact ⟨rfl, (List.length_modify ..).trans hlen⟩

theorem graph_eq {ts : List (List Nat)} (h0 : 0 < ts.length)
    (hin : ∀ b, ∀ t ∈ ts.getD b [], t < ts.length) : graph ts = .ok (Graph.ofTargets ts) := by
  have hlen : (ts.map List.eraseDups).length = ts.length := List.length_map _
  have hin' : ∀ b, ∀ t ∈ (ts.map List.eraseDups).getD b [], t < (ts.map List.eraseDups).length :=
    fun b t ht => hlen ▸ hin b t (Graph.mem_succsOf.mp ht)
  have hedges : ∀ edges ∈ ts.map List.eraseDups, ∀ t ∈ edges, t < (ts.map List.eraseDups).length := by
    intro edges hedges t ht
    obtain ⟨b, hb⟩ := List.mem_iff_getElem?.mp hedges
    have hget : (ts.map List.eraseDups).getD b [] = edges := by
      rw [List.getD_eq_getElem?_getD, hb]
      rfl
    exact hin' b t (hget ▸ ht)
  have hentry : 0 ∈ (DepthFirst.walk (ts.map List.eraseDups)).finished :=
    (Graph.ofTargets_sound h0 hin).entry
  simp only [graph, enterEdges_eq hedges, ok_bind, walk_eq (hlen ▸ h0) hin', compute_eq hentry]
  rfl

theorem targets_draft (b : Nat) (t : Terminator) : targets b t.draft = .ok t.targets := by
  cases t with
  | goto t => rfl
  | branch c y n => rfl
  | ret => rfl
  | unreachable => rfl

/-- **The graph of a well-formed function is built without a miss.** -/
theorem graph_draft {f : Function} (hf : f.WellFormed) : f.draft.graphChecked = .ok f.graph := by
  have htargets : f.draft.blocks.zipIdx.mapM (fun x => targets x.2 x.1.terminator) =
      .ok (f.blocks.map fun b => b.terminator.targets) := by
    have hall : f.draft.blocks.zipIdx = f.blocks.zipIdx.map fun x => (x.1.draft, x.2) :=
      List.zipIdx_map ..
    rw [hall, List.mapM_map, mapM_ok (g := fun x => x.1.terminator.targets) fun x _ =>
      targets_draft x.2 x.1.terminator]
    refine congrArg Except.ok ?_
    conv_rhs => rw [← List.zipIdx_map_fst 0 f.blocks, List.map_map]
    rfl
  rw [Draft.graphChecked, htargets, ok_bind]
  refine graph_eq ?_ hf.targets_lt
  rw [List.length_map]
  exact hf.nonempty

end Checked

end Ownership
