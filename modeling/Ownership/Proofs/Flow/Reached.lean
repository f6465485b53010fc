import Mathlib.Data.List.Basic
import Ownership.Flow.Worklist
import Ownership.Proofs.Flow.Walk

/-!
# Graphs that agree on what is reached

Two graphs may differ in their dead blocks: in where these lead to, and in which blocks they are
listed as predecessors of. What the passes ask a graph is the same in both as long as the blocks that
edges lead to from block 0 have the same successors:

* `walk_eq`: the walk from block 0 meets the same blocks in the same order, although it is given a
  different number of steps;
* `Graph.SameReached`: the order, the successors and the live predecessors of its blocks agree, and
  so do the blocks beyond each of them (`SameReached.beyond_eq`);
* `Worklist.run_congr`: a pass that does the same at the blocks of the order runs the same way.
-/

namespace Ownership

open Std

/-! ## 1. The walk -/

namespace DepthFirst

variable {succs succs' : Nat → List Nat} {n : Nat} {w : Walk}

/-- The only successor list that a step looks up is that of a block an edge leads to. -/
theorem Walk.Sound.step_congr (hsame : ∀ b, Leads succs b → succs b = succs' b)
    (h : w.Sound succs n) : w.step succs = w.step succs' := by
  unfold Walk.step
  cases hw : w.stack with
  | nil => rfl
  | cons frame rest =>
    obtain ⟨b, _ | ⟨s, ss⟩⟩ := frame
    · rfl
    · obtain ⟨hb, hs⟩ := h.edge hw
      have hleads : Leads succs s := (h.found b hb).tail hs
      simp only [hsame s hleads]

theorem Walk.Sound.steps_congr (hin : ∀ b < n, ∀ s ∈ succs b, s < n)
    (hsame : ∀ b, Leads succs b → succs b = succs' b) (k : Nat) (h : w.Sound succs n) :
    w.steps succs k = w.steps succs' k := by
  induction k generalizing w with
  | zero => rfl
  | succ k ih =>
    rw [Walk.steps, Walk.steps, ← h.step_congr hsame]
    exact ih (h.step hin)

theorem Walk.steps_add (succs : Nat → List Nat) (k m : Nat) (w : Walk) :
    w.steps succs (k + m) = (w.steps succs k).steps succs m := by
  induction k generalizing w with
  | zero => rw [Nat.zero_add]; rfl
  | succ k ih =>
    rw [Nat.add_right_comm]
    exact ih (w.step succs)

/-- **The walk does not look at dead blocks**: both walks are over before their steps are used up, so
    both are what the sum of the two numbers of steps gives. -/
theorem walk_eq {l l' : List (List Nat)} (h0 : 0 < l.length) (h0' : 0 < l'.length)
    (hin : ∀ b, ∀ s ∈ l.getD b [], s < l.length) (hin' : ∀ b, ∀ s ∈ l'.getD b [], s < l'.length)
    (hsame : ∀ b, Leads (fun b => l.getD b []) b → l.getD b [] = l'.getD b []) : walk l = walk l' := by
  have hstart : Walk.start (fun b => l.getD b []) = Walk.start (fun b => l'.getD b []) := by
    rw [Walk.start, Walk.start, hsame 0 .refl]
  have hdone := (walk_done l h0 hin).2
  have hdone' := (walk_done l' h0' hin').2
  rw [walk] at hdone hdone'
  have hlong := Walk.steps_add (fun b => l.getD b []) (l.flatten.length + l.length)
    (l'.flatten.length + l'.length) (Walk.start fun b => l.getD b [])
  have hlong' := Walk.steps_add (fun b => l'.getD b []) (l'.flatten.length + l'.length)
    (l.flatten.length + l.length) (Walk.start fun b => l'.getD b [])
  rw [Walk.steps_of_done _ hdone] at hlong
  rw [Walk.steps_of_done _ hdone'] at hlong'
  rw [walk, walk, ← hlong, ← hlong', ← hstart, Nat.add_comm (l'.flatten.length + l'.length)]
  exact (sound_start h0).steps_congr (fun b _ => hin b) hsame _

end DepthFirst

/-! ## 2. Graphs -/

namespace Graph

/-- The graphs have the same blocks, meet the same of them, and agree on the edges between these. -/
structure SameReached (g g' : Graph) : Prop where
  size : g.size = g'.size
  order : g.order = g'.order
  succs : ∀ b ∈ g.order, g.succsOf b = g'.succsOf b
  preds : ∀ b ∈ g.order, g.livePreds b = g'.livePreds b

variable {g g' : Graph}

theorem SameReached.reachable (h : g.SameReached g') : g.reachable = g'.reachable := by
  unfold Graph.reachable isReachable
  rw [h.size, h.order]

theorem SameReached.dead (h : g.SameReached g') : g.dead = g'.dead := by
  unfold Graph.dead isReachable
  rw [h.size, h.order]

/-- From blocks of the order, edges lead to blocks of the order only. -/
theorem Sound.insert_succs (hg : g.Sound) {bs : List Nat} {s : ExtTreeSet Nat}
    (hs : ∀ b ∈ s, b ∈ g.order) (hbs : ∀ b ∈ bs, b ∈ g.order) :
    ∀ b ∈ bs.foldl (fun t b => t.insertMany (g.succsOf b)) s, b ∈ g.order := by
  induction bs generalizing s with
  | nil => exact hs
  | cons a bs ih =>
    refine ih (fun b hb => ?_) fun b hb => hbs b (List.mem_cons_of_mem _ hb)
    rcases ExtTreeSet.mem_insertMany_list.mp hb with hb | hb
    · exact hs b hb
    · exact hg.closed a (hbs a List.mem_cons_self) b (List.contains_iff_mem.mp hb)

theorem SameReached.spread_eq (hg : g.Sound) (h : g.SameReached g') (fuel : Nat) {s : ExtTreeSet Nat}
    (hs : ∀ b ∈ s, b ∈ g.order) : g.spread fuel s = g'.spread fuel s := by
  induction fuel generalizing s with
  | zero => rfl
  | succ fuel ih =>
    have hlist : ∀ b ∈ s.toList, b ∈ g.order := fun b hb => hs b (ExtTreeSet.mem_toList.mp hb)
    have hnext : s.toList.foldl (fun t b => t.insertMany (g.succsOf b)) s =
        s.toList.foldl (fun t b => t.insertMany (g'.succsOf b)) s :=
      List.foldl_ext _ _ _ fun t b hb => by rw [h.succs b (hlist b hb)]
    rw [spread, spread, ← hnext, ih (hg.insert_succs hs hlist)]

/-- The blocks beyond a block that is reached are reached themselves. -/
theorem SameReached.beyond_eq (hg : g.Sound) (h : g.SameReached g') {b : Nat} (hb : b ∈ g.order) :
    g.beyond b = g'.beyond b := by
  rw [beyond, beyond, ← h.size, ← h.succs b hb]
  refine h.spread_eq hg _ fun c hc => ?_
  exact hg.closed b hb c (List.contains_iff_mem.mp (ExtTreeSet.mem_ofList.mp hc))

variable {targets targets' : List (List Nat)}

theorem livePreds_ofTargets {b : Nat} (hb : b < targets.length) :
    (ofTargets targets).livePreds b = (List.range targets.length).filter fun p =>
      (ofTargets targets).isReachable p && ((ofTargets targets).succsOf p).contains b := by
  rw [livePreds, predsOf_ofTargets hb, List.filter_filter]

/-- **Blocks with the same targets where edges lead make graphs that agree on what is reached.** -/
theorem ofTargets_sameReached (hg : (ofTargets targets).Sound) (hg' : (ofTargets targets').Sound)
    (h0 : 0 < targets.length) (hlen : targets.length = targets'.length)
    (hin : ∀ b, ∀ t ∈ targets.getD b [], t < targets.length)
    (hin' : ∀ b, ∀ t ∈ targets'.getD b [], t < targets'.length)
    (hsame : ∀ b ∈ (ofTargets targets).order, targets.getD b [] = targets'.getD b []) :
    (ofTargets targets).SameReached (ofTargets targets') := by
  have hsize : (ofTargets targets).succs.length = targets.length := List.length_map _
  have hsize' : (ofTargets targets').succs.length = targets'.length := List.length_map _
  have hsuccs : ∀ b ∈ (ofTargets targets).order,
      (ofTargets targets).succsOf b = (ofTargets targets').succsOf b := fun b hb => by
    rw [succsOf_ofTargets, succsOf_ofTargets, hsame b hb]
  have hwalk : DepthFirst.walk (ofTargets targets).succs = DepthFirst.walk (ofTargets targets').succs :=
    DepthFirst.walk_eq (hsize ▸ h0) (hsize' ▸ hlen ▸ h0) (fun b s hs => hsize ▸ hin b s (mem_succsOf.mp hs))
    (fun b s hs => hsize' ▸ hin' b s (mem_succsOf.mp hs)) fun b hb => hsuccs b (hg.mem_order_iff.mpr hb)
  have horder : (ofTargets targets).order = (ofTargets targets').order :=
    congrArg DepthFirst.Walk.finished hwalk
  refine ⟨hsize.trans (hlen.trans hsize'.symm), horder, hsuccs, fun b hb => ?_⟩
  rw [livePreds_ofTargets (hsize ▸ hg.bound b hb),
    livePreds_ofTargets (hsize' ▸ hg'.bound b (horder ▸ hb)), hlen]
  refine List.filter_congr fun p _ => ?_
  have hreach : (ofTargets targets).isReachable p = (ofTargets targets').isReachable p := by
    rw [isReachable, isReachable, horder]
  rw [hreach]
  by_cases hp : p ∈ (ofTargets targets).order
  · rw [hsuccs p hp]
  · have hdead : (ofTargets targets').isReachable p = false := by
      rw [← hreach, isReachable, List.contains_eq_mem, decide_eq_false hp]
    rw [hdead, Bool.false_and, Bool.false_and]

end Graph

/-! ## 3. Passes -/

/-- A run only visits blocks of the order. -/
theorem Worklist.run_congr {σ : Type} {order : List Nat} {visit visit' : Nat → σ → σ × List Nat}
    (hsame : ∀ b ∈ order, visit b = visit' b) (cap : Nat) {waiting : List Nat}
    (hw : ∀ b ∈ waiting, b ∈ order) (s : σ) (n : Nat) :
    run order visit cap waiting s n = run order visit' cap waiting s n := by
  induction cap generalizing waiting s n with
  | zero =>
    cases waiting with
    | nil => rfl
    | cons b rest => rfl
  | succ cap ih =>
    cases waiting with
    | nil => rfl
    | cons b rest =>
      rw [run, run, hsame b (hw b List.mem_cons_self)]
      exact ih (fun c hc => (mem_enqueue.mp hc).1) _ _

end Ownership
