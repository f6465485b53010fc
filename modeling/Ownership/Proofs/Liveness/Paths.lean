import Ownership.Proofs.Checked.Liveness
import Ownership.Proofs.Loans.Reaching

/-!
# Live is what is used along a path

What the pass writes down about every point that is reached, compared with the paths that lead on from
there.

* `Function.UsedAhead`: on some path the root is used at the last point and defined at none before;
  `liveAt_iff_usedAhead` compares this with going on step by step;
* `LiveFacts.Exact`: what is live before and behind the points and the blocks, by paths;
* `liveness_exact`: when the pass converged, its facts are exact.
-/

namespace Ownership

open Std (ExtTreeMap)

variable {f : Function} {tracked : Names} {p : Point} {r : String}

/-! ## 1. Paths -/

/-- On some path from the point, `ps` and then `q`, the root is used at `q` and defined nowhere
    before. -/
def Function.UsedAhead (f : Function) (tracked : Names) (p : Point) (r : String) : Prop :=
  ∃ ps q, (ps ++ [q]).head? = some p ∧ (ps ++ [q]).IsChain f.Step ∧
    r ∈ f.usesAt tracked q ∧ ∀ x ∈ ps, r ∉ f.defsAt tracked x

/-- One more point in front of a path. -/
theorem Function.UsedAhead.step {q : Point} (h : f.UsedAhead tracked q r) (hs : f.Step p q)
    (hd : r ∉ f.defsAt tracked p) : f.UsedAhead tracked p r := by
  obtain ⟨ps, last, hhead, hchain, huse, hdefs⟩ := h
  refine ⟨p :: ps, last, rfl, List.isChain_cons.mpr ⟨fun x hx => ?_, hchain⟩, huse, fun x hx => ?_⟩
  · obtain rfl : q = x := Option.some.inj (hhead.symm.trans hx)
    exact hs
  · rcases List.mem_cons.mp hx with rfl | hx
    · exact hd
    · exact hdefs x hx

/-- **Going on step by step and looking at whole paths is the same.** -/
theorem liveAt_iff_usedAhead : f.LiveAt tracked p r ↔ f.UsedAhead tracked p r := by
  constructor
  · intro h
    induction h with
    | @use p r hu =>
      exact ⟨[], p, rfl, List.isChain_singleton p, hu, fun x hx => absurd hx List.not_mem_nil⟩
    | pass hd hs _ ih => exact ih.step hs hd
  · intro h
    obtain ⟨ps, last, hhead, hchain, huse, hdefs⟩ := h
    induction ps generalizing p with
    | nil =>
      cases hhead
      exact .use huse
    | cons x ps ih =>
      cases hhead
      obtain ⟨hstep, hchain⟩ := List.isChain_cons.mp hchain
      obtain ⟨next, hnext⟩ : ∃ next, (ps ++ [last]).head? = some next :=
        ⟨(ps ++ [last]).head (by simp), List.head?_eq_some_head _⟩
      refine .pass (hdefs x List.mem_cons_self) (hstep next hnext) (ih hnext hchain fun y hy => ?_)
      exact hdefs y (List.mem_cons_of_mem _ hy)

/-! ## 2. What is written down -/

variable {types : TypeTable} {cap : Nat}

/-- There is something written down for every point that is reached. -/
theorem liveFacts_known (types : TypeTable) (cap : Nat) (hb : p.block ∈ f.graph.order)
    (hp : p.stmt ≤ (f.block p.block).statements.length) :
    (f.trackLive f.graph types cap).before.get? p = some ((f.trackLive f.graph types cap).liveBefore p) ∧
      (f.trackLive f.graph types cap).after.get? p =
        some ((f.trackLive f.graph types cap).liveAfter p) := by
  have hrow : p ∈ (f.liveRows types cap).map Prod.fst :=
    List.mem_map.mpr ⟨_, List.mem_flatMap.mpr ⟨p.block, hb, Function.mem_livePoints.mpr ⟨p.stmt, hp, rfl⟩⟩, rfl⟩
  refine ⟨getElem?_eq_getD_of_mem ?_ ∅, getElem?_eq_getD_of_mem ?_ ∅⟩
  · exact (mem_rows Prod.fst _).mpr (Or.inl hrow)
  · exact (mem_rows Prod.fst _).mpr (Or.inl hrow)

/-- What is live before and behind the points and the blocks that are reached, by paths. -/
structure LiveFacts.Exact (facts : LiveFacts) (f : Function) : Prop where
  /-- Live before a point are the tracked roots that are used on some path from there before they are
      defined. -/
  before : ∀ p, f.Reaches p → ∃ live, facts.before.get? p = some live ∧
    ∀ r, r ∈ live ↔ r ∈ facts.tracked ∧ f.UsedAhead facts.tracked p r
  /-- Live behind a point is what is live before a point that control goes to next. -/
  after : ∀ p, f.Reaches p → ∃ live, facts.after.get? p = some live ∧
    ∀ r, r ∈ live ↔ ∃ q next, f.Step p q ∧ facts.before.get? q = some next ∧ r ∈ next
  /-- At the ends of a block the same is live as at its first point and its terminator. -/
  ends : ∀ b, f.Reaches ⟨b, 0⟩ → ∃ ins outs, facts.liveIn.get? b = some ins ∧
    facts.before.get? ⟨b, 0⟩ = some ins ∧ facts.liveOut.get? b = some outs ∧
    facts.after.get? (f.exitOf b) = some outs

/-- **Liveness is exact along paths**, for any bound on the visits under which the pass converged. -/
theorem liveness_exact {d : Draft} (hv : d.validate types = .ok f)
    (hc : (f.trackLive f.graph types cap).converged = true) :
    (f.trackLive f.graph types cap).Exact f := by
  have hf := Draft.wellFormed_of_validate hv
  have hat : ∀ p, f.Reaches p → p.block ∈ f.graph.order ∧ p.stmt ≤ (f.block p.block).statements.length := by
    intro p hp
    obtain ⟨ps, hr⟩ := hp
    exact hr.mem_order hf
  refine ⟨fun p hp => ?_, fun p hp => ?_, fun b hb => ?_⟩
  · obtain ⟨hb, hi⟩ := hat p hp
    refine ⟨_, (liveFacts_known types cap hb hi).1, fun r => ?_⟩
    rw [mem_liveBefore hf hc hb hi, ← liveAt_iff_usedAhead]
    exact (and_iff_right_of_imp Function.LiveAt.mem_tracked).symm
  · obtain ⟨hb, hi⟩ := hat p hp
    refine ⟨_, (liveFacts_known types cap hb hi).2, fun r => ?_⟩
    rw [mem_liveAfter hf hc hb hi]
    refine exists_congr fun q => ?_
    constructor
    · intro h
      obtain ⟨hs, hr⟩ := h
      obtain ⟨ps, hroute⟩ := hp
      obtain ⟨hqb, hqi⟩ := hat q ⟨_, hroute.step hs⟩
      exact ⟨_, hs, (liveFacts_known types cap hqb hqi).1, hr⟩
    · intro h
      obtain ⟨next, hs, hnext, hr⟩ := h
      have hlive : (f.trackLive f.graph types cap).liveBefore q = next := by
        rw [LiveFacts.liveBefore, ExtTreeMap.getD_eq_getD_getElem?]
        exact congrArg (Option.getD · ∅) hnext
      exact ⟨hs, hlive ▸ hr⟩
  · have hb : b ∈ f.graph.order := (hat _ hb).1
    have hknown := (Checked.runLive_eq hf (f.tracked types) cap).2
    refine ⟨_, _, hknown.ins hb, ?_, hknown.outs hb, ?_⟩
    · exact (liveFacts_known types cap hb (Nat.zero_le _)).1.trans
        (congrArg some (liveIn_eq hf hc hb).symm)
    · exact (liveFacts_known types cap hb (Nat.le_refl _)).2.trans
        (congrArg some (Function.liveOut_eq hf types cap hb).symm)

/-- Where the loop of `relay` turns, `v` is used in the next turn; before it is filled again, it is
    not. -/
theorem liveness_exact_relay :
    relay.draft.validate relayTypes = .ok relay ∧
      (relay.trackLive relay.graph relayTypes 20).converged = true ∧
      relay.UsedAhead (relay.tracked relayTypes) ⟨1, 3⟩ "v" ∧
      ¬ relay.UsedAhead (relay.tracked relayTypes) ⟨1, 2⟩ "v" := by
  have hv : relay.draft.validate relayTypes = .ok relay := rfl
  have hc : (relay.trackLive relay.graph relayTypes 20).converged = true := by decide +kernel
  have hlive : ((relay.trackLive relay.graph relayTypes 20).before.get? ⟨1, 3⟩).map (·.contains "v") =
      some true := by decide +kernel
  have hgone : ((relay.trackLive relay.graph relayTypes 20).before.get? ⟨1, 2⟩).map (·.contains "v") =
      some false := by decide +kernel
  have hexact := liveness_exact hv hc
  obtain ⟨turn, hturn, hthere⟩ := hexact.before ⟨1, 3⟩ (relay_reaches.within (by decide))
  obtain ⟨fill, hfill, hhere⟩ := hexact.before ⟨1, 2⟩ (relay_reaches.within (by decide))
  rw [hturn, Option.map_some, Option.some.injEq] at hlive
  rw [hfill, Option.map_some, Option.some.injEq] at hgone
  refine ⟨hv, hc, ((hthere "v").mp (Std.ExtTreeSet.contains_iff_mem.mp hlive)).2, fun hused => ?_⟩
  have hmem := (hhere "v").mpr ⟨(liveAt_iff_usedAhead.mpr hused).mem_tracked, hused⟩
  rw [Std.ExtTreeSet.contains_iff_mem.mpr hmem] at hgone
  cases hgone

end Ownership
