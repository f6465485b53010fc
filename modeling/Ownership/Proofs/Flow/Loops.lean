import Ownership.Proofs.Flow.Dominators
import Ownership.Proofs.Flow.Order

/-!
# Natural loops

Which edges close a cycle depends on the walk: where a loop can be entered at two of its blocks, the
walk decides which edge of the loop it finds retreating. The loops with a single entrance do not depend
on it. Their edges back are those whose target dominates their source, and the walk finds all of them,
since it comes to the source along open blocks, of which the target is one.

* `ReachedEdge`, `NaturalEdge`: edges between blocks that are reached, and those among them that lead to
  a dominator of their source;
* `mem_dominators_iff`: the dominators that are kept with a graph are those along jumps;
* `mem_backEdges_of_natural`: natural edges close a cycle; `exists_cycle_of_mem`: any other edge that
  closes a cycle closes one without natural edges;
* `loops_by_dominance` puts the two together.
-/

namespace Ownership.Graph

open Relation (ReflTransGen TransGen)
open DepthFirst (Ahead)

/-- An edge between blocks that jumps lead to from block 0. -/
def ReachedEdge (targets : List (List Nat)) (u v : Nat) : Prop :=
  ReflTransGen (Jumps targets) 0 u ∧ ReflTransGen (Jumps targets) 0 v ∧ Jumps targets u v

/-- An edge back to a block that lies on every way to where it starts. -/
def NaturalEdge (targets : List (List Nat)) (u v : Nat) : Prop :=
  ReachedEdge targets u v ∧ Dominates (Jumps targets) 0 v u

variable {targets : List (List Nat)} {u v : Nat}

section

variable (hg : (ofTargets targets).Sound)

include hg

theorem reachedEdge_iff :
    ReachedEdge targets u v ↔ u ∈ (ofTargets targets).order ∧ v ∈ (ofTargets targets).succsOf u := by
  rw [mem_succsOf, mem_order_iff_jumps hg]
  exact ⟨fun h => ⟨h.1, h.2.2⟩, fun h => ⟨h.1, h.1.tail h.2, h.2⟩⟩

/-! ## 1. Dominance along jumps -/

/-- A way along jumps is a way through listed blocks. -/
theorem way_iff {b : Nat} {ps : List Nat} :
    Way (Dominators.Edge (ofTargets targets).order (ofTargets targets).predsOf) 0 b ps ↔
      Way (Jumps targets) 0 b ps := by
  constructor
  · refine Way.mono fun p b he => mem_succsOf.mp ?_
    exact (hg.preds b (hg.bound b he.2.1) p).mp he.2.2
  · intro h
    suffices hlisted : Way (Dominators.Edge (ofTargets targets).order (ofTargets targets).predsOf) 0 b ps ∧
        b ∈ (ofTargets targets).order from hlisted.1
    induction h with
    | start => exact ⟨.start, hg.entry⟩
    | @step p b ps _ he ih =>
      have hsucc : b ∈ (ofTargets targets).succsOf p := mem_succsOf.mpr he
      have hb := hg.closed p ih.2 b hsucc
      exact ⟨ih.1.step ⟨ih.2, hb, (hg.preds b (hg.bound b hb) p).mpr hsucc⟩, hb⟩

/-- **The dominators kept with a graph are those along jumps.** -/
theorem mem_dominators_iff (hu : u ∈ (ofTargets targets).order) :
    (ofTargets targets).dominators.dominates v u = true ↔ Dominates (Jumps targets) 0 v u := by
  have hreach : ∀ b ∈ (ofTargets targets).order, ∃ ps,
      Way (Dominators.Edge (ofTargets targets).order (ofTargets targets).predsOf) 0 b ps := by
    intro b hb
    have hleads := hg.found b hb
    clear hb
    induction hleads with
    | refl => exact ⟨_, .start⟩
    | tail _ hs ih =>
      obtain ⟨ps, hps⟩ := ih
      exact ⟨_, (way_iff hg).mpr (((way_iff hg).mp hps).step (mem_succsOf.mp hs))⟩
  have hmem : v ∈ (ofTargets targets).dominators.of u ↔
      Dominates (Dominators.Edge (ofTargets targets).order (ofTargets targets).predsOf) 0 v u :=
    (Dominators.mem_of_iff hg.entry hreach hu).2
  rw [Dominators.dominates, Std.ExtTreeSet.contains_iff_mem, hmem]
  exact forall_congr' fun ps => imp_congr_left (way_iff hg)

theorem mem_irreducibleEdges_iff (hline : (ofTargets targets).Lined) :
    (u, v) ∈ (ofTargets targets).irreducibleEdges ↔
      (u, v) ∈ (ofTargets targets).backEdges ∧ ¬ Dominates (Jumps targets) 0 v u := by
  rw [irreducibleEdges, List.mem_filter]
  refine and_congr_right fun hback => ?_
  rw [← mem_dominators_iff hg (hline.closing _ hback).1]
  simp

/-! ## 2. Cycles -/

omit hg in
/-- Edges that lead on make a way past blocks that lead on to its end. -/
theorem exists_way_ahead {g : Graph} {b : Nat} (h : ReflTransGen (Ahead g.succsOf g.order) 0 b) :
    ∃ ps, Way (fun a c => c ∈ g.succsOf a) 0 b ps ∧
      ∀ a ∈ ps, ReflTransGen (Ahead g.succsOf g.order) a b := by
  induction h with
  | refl =>
    refine ⟨_, .start, fun a ha => ?_⟩
    rw [List.mem_singleton.mp ha]
  | tail _ he ih =>
    obtain ⟨ps, hps, hall⟩ := ih
    refine ⟨_, hps.step he.1, fun a ha => ?_⟩
    rcases List.mem_cons.mp ha with rfl | ha
    · exact .refl
    · exact (hall a ha).tail he

/-- **Natural edges close a cycle**: their target lies on the way along which the walk came to their
    source. -/
theorem mem_backEdges_of_natural (hline : (ofTargets targets).Lined) (h : NaturalEdge targets u v) :
    (u, v) ∈ (ofTargets targets).backEdges := by
  obtain ⟨hu, hv⟩ := (reachedEdge_iff hg).mp h.1
  obtain ⟨ps, hps, hall⟩ := exists_way_ahead (hline.spanned u hu)
  have hmem : v ∈ ps := h.2 ps (hps.mono fun a c hc => mem_succsOf.mp hc)
  exact (hline.mem_backEdges_iff hg.nodup hu hv).mpr (Ahead.idxOf_le hg.nodup (hall v hmem))

/-- Edges that lead on are not natural. -/
theorem ahead_not_natural (hline : (ofTargets targets).Lined) (hu : u ∈ (ofTargets targets).order)
    (h : Ahead (ofTargets targets).succsOf (ofTargets targets).order u v) :
    ReachedEdge targets u v ∧ ¬ NaturalEdge targets u v := by
  refine ⟨(reachedEdge_iff hg).mpr ⟨hu, h.1⟩, fun hnat => ?_⟩
  have hle := (hline.mem_backEdges_iff hg.nodup hu h.1).mp (mem_backEdges_of_natural hg hline hnat)
  exact absurd (DepthFirst.idxOf_lt_of_sublist hg.nodup h.2) (Nat.not_lt.mpr hle)

/-- An edge that closes a cycle and is not natural closes one of edges that are not natural. -/
theorem exists_cycle_of_mem (hline : (ofTargets targets).Lined)
    (hback : (u, v) ∈ (ofTargets targets).backEdges) (hnot : ¬ Dominates (Jumps targets) 0 v u) :
    TransGen (fun a c => ReachedEdge targets a c ∧ ¬ NaturalEdge targets a c) v v := by
  obtain ⟨hu, hv, hchain⟩ := hline.closing _ hback
  have hpath : ∀ {b}, ReflTransGen (Ahead (ofTargets targets).succsOf (ofTargets targets).order) v b →
      ReflTransGen (fun a c => ReachedEdge targets a c ∧ ¬ NaturalEdge targets a c) v b := by
    intro b h
    induction h with
    | refl => exact .refl
    | tail _ he ih => exact ih.tail (ahead_not_natural hg hline (he.2.subset List.mem_cons_self) he)
  exact TransGen.tail' (hpath hchain) ⟨(reachedEdge_iff hg).mpr ⟨hu, hv⟩, fun hnat => hnot hnat.2⟩

end

/-! ## 3. Loops -/

/-- **Loops by dominance.** Of the edges that close a cycle, those that are not irreducible are exactly
    the edges between reached blocks that lead to a dominator of their source; and no edge is
    irreducible exactly if the reached blocks have no cycle without such an edge. Neither depends on the
    order of the walk. -/
theorem loops_by_dominance (h0 : targets ≠ []) (hin : ∀ ts ∈ targets, ∀ t ∈ ts, t < targets.length) :
    ofOpenTargets (targets.map some) = .ok (ofTargets targets) ∧
      (∀ u v, ((u, v) ∈ (ofTargets targets).backEdges ∧
          (u, v) ∉ (ofTargets targets).irreducibleEdges) ↔ NaturalEdge targets u v) ∧
      ((ofTargets targets).irreducibleEdges = [] ↔
        ∀ b, ¬ TransGen (fun u v => ReachedEdge targets u v ∧ ¬ NaturalEdge targets u v) b b) := by
  have hpos : 0 < targets.length := List.length_pos_iff.mpr h0
  have hg := ofTargets_sound hpos (getD_lt hin)
  have hline := ofTargets_lined hpos (getD_lt hin)
  refine ⟨ofOpenTargets_some h0, fun u v => ?_, fun hnone => ?_, fun hacyclic => ?_⟩
  · rw [mem_irreducibleEdges_iff hg hline, not_and_not_right]
    constructor
    · intro h
      obtain ⟨hback, hdom⟩ := h
      obtain ⟨hu, hv, _⟩ := hline.closing _ hback
      exact ⟨(reachedEdge_iff hg).mpr ⟨hu, hv⟩, hdom hback⟩
    · intro hnat
      exact ⟨mem_backEdges_of_natural hg hline hnat, fun _ => hnat.2⟩
  · -- an edge that is left over is not retreating, so it leads forward
    refine acyclic_of_idxOf_lt (ofTargets targets).order fun u v huv => ?_
    obtain ⟨hu, hv⟩ := (reachedEdge_iff hg).mp huv.1
    refine hline.idxOf_lt hg.nodup hu hv fun hback => ?_
    have hirr := (mem_irreducibleEdges_iff hg hline).mpr ⟨hback, fun hdom => huv.2 ⟨huv.1, hdom⟩⟩
    rw [hnone] at hirr
    exact absurd hirr List.not_mem_nil
  · refine List.eq_nil_iff_forall_not_mem.mpr fun e he => ?_
    obtain ⟨hback, hnot⟩ := (mem_irreducibleEdges_iff hg hline).mp he
    exact hacyclic _ (exists_cycle_of_mem hg hline hback hnot)

/-- The edge from block 2 back to block 1 is irreducible, and the cycle of the two has no natural edge;
    the other edges back, among them one from a block to itself, are natural. -/
theorem loops_by_dominance_tangled :
    (tangled ≠ [] ∧ ∀ ts ∈ tangled, ∀ t ∈ ts, t < tangled.length) ∧
      (ofTargets tangled).irreducibleEdges = [(2, 1)] ∧ NaturalEdge tangled 3 3 ∧
      NaturalEdge tangled 3 0 ∧ ¬ NaturalEdge tangled 2 1 ∧
      ∃ b, TransGen (fun u v => ReachedEdge tangled u v ∧ ¬ NaturalEdge tangled u v) b b := by
  have hne : tangled ≠ [] := List.cons_ne_nil _ _
  have hin : ∀ ts ∈ tangled, ∀ t ∈ ts, t < tangled.length := by decide
  have hirr : (ofTargets tangled).irreducibleEdges = [(2, 1)] := by decide +kernel
  have hback : (ofTargets tangled).backEdges = [(3, 0), (3, 3), (2, 1)] := by decide +kernel
  obtain ⟨_, hnat, hcycle⟩ := loops_by_dominance hne hin
  rw [hirr, hback] at hnat
  rw [hirr] at hcycle
  refine ⟨⟨hne, hin⟩, hirr, (hnat 3 3).mp (by decide), (hnat 3 0).mp (by decide),
    fun h => absurd ((hnat 2 1).mpr h) (by decide), ?_⟩
  by_contra hno
  push Not at hno
  exact absurd (hcycle.mpr hno) (List.cons_ne_nil _ _)

end Ownership.Graph
