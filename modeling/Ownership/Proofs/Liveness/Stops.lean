import Ownership.Proofs.Flow.Termination
import Ownership.Proofs.Liveness.Exact

/-!
# Liveness stops by itself

What is found live before a block only grows from visit to visit, and only tracked roots are ever
found live.

* `Function.LiveAscending`: another visit would find again what was found live;
* `trackLive_stops`: with enough visits the pass converges.
-/

namespace Ownership

open Std (ExtTreeMap ExtTreeSet)

variable {f : Function} {tracked : Names} {s : LiveSets} {b : Nat} {rest : List Nat}

namespace Function

/-- More is live before a block if more is live behind it. -/
theorem liveThroughBlock_mono {out out' : Names} (h : ∀ r ∈ out, r ∈ out') (b : Nat) {r : String}
    (hr : r ∈ f.liveThroughBlock tracked b out) : r ∈ f.liveThroughBlock tracked b out' := by
  unfold liveThroughBlock at hr ⊢
  generalize (f.block b).statements = ss at hr ⊢
  induction ss generalizing r with
  | nil => exact ExtTreeSet.mem_union_iff.mpr ((ExtTreeSet.mem_union_iff.mp hr).imp_left (h r))
  | cons t ss ih =>
    rw [List.foldr_cons, Statement.liveThrough, ExtTreeSet.mem_union_iff, ExtTreeSet.mem_diff_iff] at hr ⊢
    exact hr.imp_left fun hlive => ⟨ih hlive.1, hlive.2⟩

/-- Another visit of a block would find again what was found live before it. -/
def LiveAscending (f : Function) (tracked : Names) (s : LiveSets) : Prop :=
  ∀ b r, r ∈ s.ins.getD b ∅ → r ∈ f.liveThroughBlock tracked b (f.liveJoin s.ins b)

/-- A visit only adds to what is live before the blocks. -/
theorem LiveAscending.grows (h : f.LiveAscending tracked s) (b : Nat) {c : Nat} {r : String}
    (hr : r ∈ s.ins.getD c ∅) : r ∈ (f.visitLive f.graph tracked b s).1.ins.getD c ∅ := by
  by_cases e : c = b
  · subst e
    rw [visitLive_ins_self]
    exact h c r hr
  · rw [visitLive_ins_ne e]
    exact hr

theorem LiveAscending.next (h : f.LiveAscending tracked s) (b : Nat) :
    f.LiveAscending tracked (f.visitLive f.graph tracked b s).1 := by
  intro c r hr
  -- what was found live before the successors is still found live there
  have hjoin : ∀ r ∈ f.liveJoin s.ins c, r ∈ f.liveJoin (f.visitLive f.graph tracked b s).1.ins c := by
    intro r hr
    obtain ⟨t, ht, hrt⟩ := mem_liveJoin.mp hr
    exact mem_liveJoin.mpr ⟨t, ht, h.grows b hrt⟩
  refine liveThroughBlock_mono hjoin c ?_
  by_cases e : c = b
  · subst e
    rwa [visitLive_ins_self] at hr
  · rw [visitLive_ins_ne e] at hr
    exact h c r hr

/-- A visit that finds nothing new wakes nothing. -/
theorem visitLive_quiet (h : f.liveThroughBlock tracked b (f.liveJoin s.ins b) = s.ins.getD b ∅) :
    (f.visitLive f.graph tracked b s).2 = [] :=
  congrArg Prod.snd (if_pos h)

end Function

/-- The roots that are live before a block, as far as they were found. -/
def LiveSets.found (s : LiveSets) (b : Nat) : Option (Set String) := some {r | r ∈ s.ins.getD b ∅}

theorem visitLive_grows (hf : f.WellFormed) (hinv : LiveInvariant f tracked (b :: rest) s)
    (hasc : f.LiveAscending tracked s) :
    Worklist.Grows tracked.toList.toFinset LiveSets.found b s (f.visitLive f.graph tracked b s) := by
  refine ⟨fun c hc => congrArg (fun m : Names => some {r | r ∈ m}) (Function.visitLive_ins_ne hc s), _,
    rfl, ?_⟩
  rintro A ⟨⟩
  refine ⟨fun r hr => hasc.grows b hr, ?_⟩
  by_cases hsame : f.liveThroughBlock tracked b (f.liveJoin s.ins b) = s.ins.getD b ∅
  · exact Or.inl (Function.visitLive_quiet hsame)
  · -- a root that was not live before is live now
    obtain ⟨r, hr⟩ : ∃ r, ¬(r ∈ f.liveThroughBlock tracked b (f.liveJoin s.ins b) ↔
        r ∈ s.ins.getD b ∅) := by
      by_contra hno
      exact hsame (ExtTreeSet.ext_mem fun r => Classical.not_not.mp fun hr => hno ⟨r, hr⟩)
    have hold : r ∉ s.ins.getD b ∅ := fun h => hr ⟨fun _ => h, fun _ => hasc b r h⟩
    have hnew : r ∈ (f.visitLive f.graph tracked b s).1.ins.getD b ∅ := by
      rw [Function.visitLive_ins_self]
      exact Classical.byContradiction fun h => hr ⟨fun h' => absurd h' h, fun h' => absurd h' hold⟩
    have htracked : r ∈ tracked := ((hinv.next hf).usedBefore b r hnew).mem_tracked
    refine Or.inr ⟨r, ?_, hnew, hold⟩
    exact List.mem_toFinset.mpr (ExtTreeSet.mem_toList.mpr htracked)

/-- **With enough visits liveness converges.** -/
theorem trackLive_stops (hf : f.WellFormed) (types : TypeTable) :
    ∃ N, ∀ cap, N ≤ cap → (f.trackLive f.graph types cap).converged = true := by
  refine Worklist.exists_cap (List.nodup_reverse.mpr hf.graph_sound.nodup)
    (fun waiting s => (∀ b ∈ waiting, b ∈ f.graph.order.reverse) ∧
      LiveInvariant f (f.tracked types) waiting s ∧ f.LiveAscending (f.tracked types) s)
    (fun b rest s h => ⟨fun c hc => (Worklist.mem_enqueue.mp hc).1, h.2.1.next hf, h.2.2.next b⟩)
    (fun b rest s h => h.1 b List.mem_cons_self) _ LiveSets.found
    (fun b rest s h => visitLive_grows hf h.2.1 h.2.2) (s := f.firstLive)
    ⟨fun b hb => hb, .start f _, fun b r hr => ?_⟩ 0
  rw [(getD_firstLive b).1] at hr
  exact absurd hr ExtTreeSet.not_mem_empty

end Ownership
