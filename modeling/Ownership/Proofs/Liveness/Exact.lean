import Ownership.Liveness.Facts
import Ownership.Proofs.Collections
import Ownership.Proofs.Flow.Coincidence

/-!
# Liveness is exact

A root is live at a point if on some way on from there it is used before it is defined. The pass
finds exactly these roots when it converged:

* `Function.LiveAt`: the roots that are used later on, along single ways;
* `Function.liveFrom`: what is live before a point of a block, from what is live behind the block;
* `LiveInvariant`: what the visits of the pass preserve;
* `mem_liveBefore`, `mem_liveAfter`: the facts of the pass, by ways on.
-/

namespace Ownership

open Std (ExtTreeMap ExtTreeSet)

variable {f : Function} {tracked : Names}

/-! ## 1. Ways on -/

theorem mem_ofList_filter {xs : List String} {r : String} :
    r ∈ (ExtTreeSet.ofList (xs.filter tracked.contains) : Names) ↔ r ∈ xs ∧ r ∈ tracked := by
  rw [ExtTreeSet.mem_ofList, List.contains_iff_mem, List.mem_filter]
  exact Iff.rfl

namespace Function

/-- The tracked roots used at a point. -/
def usesAt (f : Function) (tracked : Names) (p : Point) : Names :=
  match f.statementAt? p with
  | some s => s.uses tracked
  | none => f.exitUses tracked (f.block p.block).terminator

/-- The tracked roots defined at a point. -/
def defsAt (f : Function) (tracked : Names) (p : Point) : Names :=
  match f.statementAt? p with
  | some s => s.defs tracked
  | none => ∅

/-- On some way on from the point the root is used before it is defined. -/
inductive LiveAt (f : Function) (tracked : Names) : Point → String → Prop where
  | use {p : Point} {r : String} (h : r ∈ f.usesAt tracked p) : f.LiveAt tracked p r
  | pass {p q : Point} {r : String} (hd : r ∉ f.defsAt tracked p) (hs : f.Step p q)
      (h : f.LiveAt tracked q r) : f.LiveAt tracked p r

/-- Only tracked roots are live. -/
theorem LiveAt.mem_tracked {p : Point} {r : String} (h : f.LiveAt tracked p r) : r ∈ tracked := by
  induction h with
  | @use p r hu =>
    unfold usesAt at hu
    cases hs : f.statementAt? p with
    | some s =>
      rw [hs] at hu
      exact (mem_ofList_filter.mp hu).2
    | none =>
      rw [hs] at hu
      exact (mem_ofList_filter.mp hu).2
  | pass _ _ _ ih => exact ih

/-! ## 2. Inside a block -/

/-- Live before the `n`-th point of a block, from what is live behind the block. -/
def liveFrom (f : Function) (tracked : Names) (b : Nat) (out : Names) (n : Nat) : Names :=
  ((f.block b).statements.drop n).foldr (Statement.liveThrough tracked)
    (out ∪ f.exitUses tracked (f.block b).terminator)

/-- Live behind the `n`-th point of a block, from what is live behind the block. -/
def liveBehind (f : Function) (tracked : Names) (b : Nat) (out : Names) (n : Nat) : Names :=
  if n < (f.block b).statements.length then f.liveFrom tracked b out (n + 1) else out

theorem liveFrom_of_lt {b n : Nat} (hn : n < (f.block b).statements.length) (out : Names) :
    f.liveFrom tracked b out n =
      (f.block b).statements[n].liveThrough tracked (f.liveFrom tracked b out (n + 1)) := by
  rw [liveFrom, List.drop_eq_getElem_cons hn, List.foldr_cons]
  rfl

/-- One step backwards over a point. -/
theorem mem_liveFrom {b n : Nat} (hn : n ≤ (f.block b).statements.length) (out : Names) {r : String} :
    r ∈ f.liveFrom tracked b out n ↔ r ∈ f.usesAt tracked ⟨b, n⟩ ∨
      (r ∉ f.defsAt tracked ⟨b, n⟩ ∧ r ∈ f.liveBehind tracked b out n) := by
  rcases Nat.lt_or_eq_of_le hn with hlt | heq
  · have hs : f.statementAt? ⟨b, n⟩ = some (f.block b).statements[n] := List.getElem?_eq_getElem hlt
    rw [liveFrom_of_lt hlt, Statement.liveThrough, ExtTreeSet.mem_union_iff, ExtTreeSet.mem_diff_iff,
      usesAt, defsAt, hs, liveBehind, if_pos hlt, or_comm, and_comm]
  · have hs : f.statementAt? ⟨b, n⟩ = none := List.getElem?_eq_none (Nat.le_of_eq heq.symm)
    rw [liveFrom, heq, List.drop_length, List.foldr_nil, ExtTreeSet.mem_union_iff, ← heq, usesAt, defsAt,
      hs, liveBehind, if_neg (Nat.not_lt.mpr (Nat.le_of_eq heq.symm)), or_comm]
    simp

theorem liveThroughBlock_eq (b : Nat) (out : Names) :
    f.liveThroughBlock tracked b out = f.liveFrom tracked b out 0 := rfl

/-- If what is live behind a block is used on some way on, so is what is live inside it. -/
theorem liveAt_of_mem_liveFrom {b : Nat} {out : Names}
    (hout : ∀ r ∈ out, ∃ t ∈ (f.block b).terminator.targets, f.LiveAt tracked ⟨t, 0⟩ r) {n : Nat}
    (hn : n ≤ (f.block b).statements.length) {r : String} (h : r ∈ f.liveFrom tracked b out n) :
    f.LiveAt tracked ⟨b, n⟩ r := by
  induction hk : (f.block b).statements.length - n generalizing n with
  | zero =>
    have he : n = (f.block b).statements.length := by omega
    rcases (mem_liveFrom hn out).mp h with hu | ⟨hd, hb⟩
    · exact .use hu
    · rw [liveBehind, if_neg (by omega)] at hb
      obtain ⟨t, ht, hlive⟩ := hout r hb
      subst he
      exact .pass hd (.jump ht) hlive
  | succ k ih =>
    rcases (mem_liveFrom hn out).mp h with hu | ⟨hd, hb⟩
    · exact .use hu
    · have hlt : n < (f.block b).statements.length := by omega
      rw [liveBehind, if_pos hlt] at hb
      exact .pass hd (.next hlt) (ih hlt hb (by omega))

end Function

/-! ## 3. The visits -/

/-- What the visits preserve: a block that does not wait satisfies its equations, and whatever was
    found live is used on some way on. -/
structure LiveInvariant (f : Function) (tracked : Names) (waiting : List Nat) (s : LiveSets) : Prop where
  behind : ∀ b ∈ f.graph.order, b ∉ waiting → ∀ r,
    r ∈ s.outs.getD b ∅ ↔ ∃ t ∈ f.graph.succsOf b, r ∈ s.ins.getD t ∅
  before : ∀ b ∈ f.graph.order, b ∉ waiting →
    s.ins.getD b ∅ = f.liveThroughBlock tracked b (s.outs.getD b ∅)
  usedBefore : ∀ b r, r ∈ s.ins.getD b ∅ → f.LiveAt tracked ⟨b, 0⟩ r
  usedBehind : ∀ b r, r ∈ s.outs.getD b ∅ →
    ∃ t ∈ (f.block b).terminator.targets, f.LiveAt tracked ⟨t, 0⟩ r

namespace Function

/-- What is live behind a block, from what is live before its successors. -/
def liveJoin (f : Function) (ins : ExtTreeMap Nat Names) (b : Nat) : Names :=
  (f.graph.succsOf b).foldl (fun live t => live ∪ ins.getD t ∅) ∅

theorem mem_liveJoin {ins : ExtTreeMap Nat Names} {b : Nat} {r : String} :
    r ∈ f.liveJoin ins b ↔ ∃ t ∈ f.graph.succsOf b, r ∈ ins.getD t ∅ := by
  rw [liveJoin, mem_foldl_union]
  simp

theorem visitLive_outs (b : Nat) (s : LiveSets) :
    (f.visitLive f.graph tracked b s).1.outs = s.outs.insert b (f.liveJoin s.ins b) := by
  unfold visitLive
  dsimp only
  split_ifs <;> rfl

theorem visitLive_ins_self (b : Nat) (s : LiveSets) : (f.visitLive f.graph tracked b s).1.ins.getD b ∅ =
    f.liveThroughBlock tracked b (f.liveJoin s.ins b) := by
  unfold visitLive
  dsimp only
  split_ifs with h
  · exact h.symm
  · exact ExtTreeMap.getD_insert_self

theorem visitLive_ins_ne {b c : Nat} (hc : c ≠ b) (s : LiveSets) :
    (f.visitLive f.graph tracked b s).1.ins.getD c ∅ = s.ins.getD c ∅ := by
  unfold visitLive
  dsimp only
  split_ifs
  · rfl
  · exact getD_insert_ne hc

/-- A visit wakes the predecessors, or what is live before the block is as it was. -/
theorem visitLive_woken (b : Nat) (s : LiveSets) :
    (f.visitLive f.graph tracked b s).2 = f.graph.livePreds b ∨
      (f.visitLive f.graph tracked b s).1.ins = s.ins := by
  unfold visitLive
  dsimp only
  split_ifs
  · exact Or.inr rfl
  · exact Or.inl rfl

end Function

namespace LiveInvariant

variable {s : LiveSets} {b : Nat} {rest : List Nat}

/-- What is live before the successors of a block that does not wait is as it was. -/
theorem ins_eq (hf : f.WellFormed) {c : Nat} (hc : c ∈ f.graph.order)
    (hnot : c ∉ Worklist.enqueue f.graph.order.reverse rest (f.visitLive f.graph tracked b s).2)
    {t : Nat} (ht : t ∈ f.graph.succsOf c) :
    (f.visitLive f.graph tracked b s).1.ins.getD t ∅ = s.ins.getD t ∅ := by
  by_cases e : t = b
  · subst e
    have hwoken : (f.visitLive f.graph tracked t s).2 = f.graph.livePreds t ∨
        (f.visitLive f.graph tracked t s).1.ins = s.ins := Function.visitLive_woken t s
    rcases hwoken with hw | hsame
    · have hpred : c ∈ f.graph.livePreds t :=
        (hf.graph_sound.mem_livePreds (hf.graph_sound.closed c hc t ht)).mpr ⟨hc, ht⟩
      exact absurd (Worklist.mem_enqueue.mpr ⟨List.mem_reverse.mpr hc, Or.inr (hw ▸ hpred)⟩) hnot
    · rw [hsame]
  · exact Function.visitLive_ins_ne e s

/-- **A visit preserves the invariant.** -/
theorem next (hf : f.WellFormed) (h : LiveInvariant f tracked (b :: rest) s) :
    LiveInvariant f tracked
      (Worklist.enqueue f.graph.order.reverse rest (f.visitLive f.graph tracked b s).2)
      (f.visitLive f.graph tracked b s).1 := by
  have hjoin : ∀ r ∈ f.liveJoin s.ins b,
      ∃ t ∈ (f.block b).terminator.targets, f.LiveAt tracked ⟨t, 0⟩ r := by
    intro r hr
    obtain ⟨t, ht, hrt⟩ := Function.mem_liveJoin.mp hr
    exact ⟨t, Function.mem_succsOf.mp ht, h.usedBefore t r hrt⟩
  have hwait : ∀ c ∈ f.graph.order, c ≠ b →
      c ∉ Worklist.enqueue f.graph.order.reverse rest (f.visitLive f.graph tracked b s).2 →
      c ∉ b :: rest := by
    intro c hc hcb hnot hmem
    rcases List.mem_cons.mp hmem with e | hmem
    · exact hcb e
    · exact hnot (Worklist.mem_enqueue.mpr ⟨List.mem_reverse.mpr hc, Or.inl hmem⟩)
  refine ⟨fun c hc hnot r => ?_, fun c hc hnot => ?_, fun c r hr => ?_, fun c r hr => ?_⟩
  · have hins : (∃ t ∈ f.graph.succsOf c, r ∈ (f.visitLive f.graph tracked b s).1.ins.getD t ∅) ↔
        ∃ t ∈ f.graph.succsOf c, r ∈ s.ins.getD t ∅ :=
      exists_congr fun t => and_congr_right fun ht => by rw [ins_eq hf hc hnot ht]
    rw [hins, Function.visitLive_outs]
    by_cases e : c = b
    · subst e
      rw [ExtTreeMap.getD_insert_self, Function.mem_liveJoin]
    · rw [getD_insert_ne e]
      exact h.behind c hc (hwait c hc e hnot) r
  · rw [Function.visitLive_outs]
    by_cases e : c = b
    · subst e
      rw [ExtTreeMap.getD_insert_self]
      exact Function.visitLive_ins_self c s
    · rw [getD_insert_ne e, Function.visitLive_ins_ne e]
      exact h.before c hc (hwait c hc e hnot)
  · by_cases e : c = b
    · subst e
      rw [Function.visitLive_ins_self, Function.liveThroughBlock_eq] at hr
      exact Function.liveAt_of_mem_liveFrom hjoin (Nat.zero_le _) hr
    · rw [Function.visitLive_ins_ne e] at hr
      exact h.usedBefore c r hr
  · rw [Function.visitLive_outs] at hr
    by_cases e : c = b
    · subst e
      rw [ExtTreeMap.getD_insert_self] at hr
      exact hjoin r hr
    · rw [getD_insert_ne e] at hr
      exact h.usedBehind c r hr

end LiveInvariant

/-! ## 4. What is written down -/

namespace Function

variable {types : TypeTable} {cap : Nat}

/-- At first nothing is live. -/
def firstLive (f : Function) : LiveSets :=
  let blank : ExtTreeMap Nat Names := f.graph.order.foldl (fun m b => m.insert b ∅) ∅
  ⟨blank, blank⟩

/-- What is live when the worklist stops. -/
def lastLive (f : Function) (types : TypeTable) (cap : Nat) : LiveSets :=
  (Worklist.run f.graph.order.reverse (f.visitLive f.graph (f.tracked types)) cap
    f.graph.order.reverse f.firstLive 0).state

/-- All rows, from which the facts are taken. -/
def liveRows (f : Function) (types : TypeTable) (cap : Nat) : List (Point × Names × Names) :=
  f.graph.order.flatMap fun b =>
    f.livePoints (f.tracked types) b ((f.lastLive types cap).outs.getD b ∅)

theorem trackLive_before : (f.trackLive f.graph types cap).before =
    writeRows Prod.fst (fun r => r.2.1) (f.liveRows types cap) ∅ := rfl

theorem trackLive_after : (f.trackLive f.graph types cap).after =
    writeRows Prod.fst (fun r => r.2.2) (f.liveRows types cap) ∅ := rfl

theorem trackLive_liveOut : (f.trackLive f.graph types cap).liveOut = (f.lastLive types cap).outs := rfl

/-- The rows of a block. -/
theorem livePoints_eq (b : Nat) (out : Names) : f.livePoints tracked b out =
    (f.exitOf b, f.liveFrom tracked b out (f.block b).statements.length, out) ::
      (List.range (f.block b).statements.length).map fun i =>
        (⟨b, i⟩, f.liveFrom tracked b out i, f.liveFrom tracked b out (i + 1)) := by
  -- the statements from the `k`-th on, with what is live before them
  have hfrom : ∀ n k, k + n = (f.block b).statements.length →
      (((f.block b).statements.zipIdx.map fun x => (x.1, Point.mk b x.2)).drop k).foldr
        (fun (x : Statement × Point) (acc : List (Point × Names × Names) × Names) =>
          ((x.2, x.1.liveThrough tracked acc.2, acc.2) :: acc.1, x.1.liveThrough tracked acc.2))
        ([], out ∪ f.exitUses tracked (f.block b).terminator) =
      ((List.range' k n).map fun i =>
        (Point.mk b i, f.liveFrom tracked b out i, f.liveFrom tracked b out (i + 1)),
        f.liveFrom tracked b out k) := by
    intro n
    induction n with
    | zero =>
      intro k hk
      have hk : k = (f.block b).statements.length := hk
      rw [List.drop_of_length_le (by simp [hk]), liveFrom, List.drop_of_length_le (Nat.le_of_eq hk.symm)]
      rfl
    | succ n ih =>
      intro k hk
      have hlt : k < (f.block b).statements.length := by omega
      rw [List.drop_eq_getElem_cons (by simpa using hlt), List.foldr_cons, ih (k + 1) (by omega),
        List.range'_succ, List.map_cons, liveFrom_of_lt hlt]
      simp
  have hall := hfrom _ 0 (Nat.zero_add _)
  rw [List.drop_zero] at hall
  rw [livePoints, List.range_eq_range']
  refine congrArg₂ _ ?_ (congrArg Prod.fst hall)
  rw [liveFrom, List.drop_length]
  rfl

theorem mem_livePoints {b : Nat} {out : Names} {row : Point × Names × Names} :
    row ∈ f.livePoints tracked b out ↔ ∃ n ≤ (f.block b).statements.length,
      row = (⟨b, n⟩, f.liveFrom tracked b out n, f.liveBehind tracked b out n) := by
  rw [livePoints_eq, List.mem_cons, List.mem_map]
  constructor
  · intro h
    rcases h with rfl | ⟨i, hi, rfl⟩
    · refine ⟨_, Nat.le_refl _, ?_⟩
      rw [liveBehind, if_neg (Nat.lt_irrefl _)]
      rfl
    · have hi := List.mem_range.mp hi
      refine ⟨i, Nat.le_of_lt hi, ?_⟩
      rw [liveBehind, if_pos hi]
  · intro h
    obtain ⟨n, hn, rfl⟩ := h
    rcases Nat.lt_or_eq_of_le hn with hlt | rfl
    · refine Or.inr ⟨n, List.mem_range.mpr hlt, ?_⟩
      rw [liveBehind, if_pos hlt]
    · refine Or.inl ?_
      rw [liveBehind, if_neg (Nat.lt_irrefl _)]
      rfl

theorem nodup_liveRows (hf : f.WellFormed) (types : TypeTable) (cap : Nat) :
    ((f.liveRows types cap).map Prod.fst).Nodup := by
  refine nodup_rows hf.graph_sound.nodup (fun b => ?_) fun b r hr => ?_
  · rw [livePoints_eq, List.map_cons, List.map_map, List.nodup_cons]
    refine ⟨fun hmem => ?_, ?_⟩
    · obtain ⟨i, hi, he⟩ := List.mem_map.mp hmem
      have hlt := List.mem_range.mp hi
      have he : i = (f.block b).statements.length := (Point.mk.inj he).2
      omega
    · exact List.Nodup.map (fun _ _ h => (Point.mk.inj h).2) List.nodup_range
  · obtain ⟨n, _, rfl⟩ := mem_livePoints.mp hr
    rfl

/-- The facts at a point of a visited block. -/
theorem liveFacts_at (hf : f.WellFormed) (types : TypeTable) (cap : Nat) {p : Point}
    (hb : p.block ∈ f.graph.order) (hp : p.stmt ≤ (f.block p.block).statements.length) :
    (f.trackLive f.graph types cap).liveBefore p =
        f.liveFrom (f.tracked types) p.block ((f.lastLive types cap).outs.getD p.block ∅) p.stmt ∧
      (f.trackLive f.graph types cap).liveAfter p =
        f.liveBehind (f.tracked types) p.block ((f.lastLive types cap).outs.getD p.block ∅) p.stmt := by
  have hrow : (p, f.liveFrom (f.tracked types) p.block ((f.lastLive types cap).outs.getD p.block ∅) p.stmt,
      f.liveBehind (f.tracked types) p.block ((f.lastLive types cap).outs.getD p.block ∅) p.stmt) ∈
      f.liveRows types cap :=
    List.mem_flatMap.mpr ⟨p.block, hb, mem_livePoints.mpr ⟨p.stmt, hp, rfl⟩⟩
  have hnodup := nodup_liveRows hf types cap
  constructor
  · rw [LiveFacts.liveBefore, trackLive_before, ExtTreeMap.getD_eq_getD_getElem?]
    exact congrArg (fun o => Option.getD o ∅) (getElem?_rows Prod.fst _ hnodup hrow)
  · rw [LiveFacts.liveAfter, trackLive_after, ExtTreeMap.getD_eq_getD_getElem?]
    exact congrArg (fun o => Option.getD o ∅) (getElem?_rows Prod.fst _ hnodup hrow)

/-- Behind a block the same is live as behind its terminator. -/
theorem liveOut_eq (hf : f.WellFormed) (types : TypeTable) (cap : Nat) {b : Nat} (hb : b ∈ f.graph.order) :
    (f.trackLive f.graph types cap).liveOut.getD b ∅ =
      (f.trackLive f.graph types cap).liveAfter (f.exitOf b) := by
  have hexit := (liveFacts_at hf types cap (p := f.exitOf b) hb (Nat.le_refl _)).2
  rw [hexit, trackLive_liveOut]
  exact (if_neg (Nat.lt_irrefl _)).symm

/-- One step backwards over a point, whether the pass converged or not. -/
theorem mem_liveBefore_step (hf : f.WellFormed) {p : Point} (hb : p.block ∈ f.graph.order)
    (hp : p.stmt ≤ (f.block p.block).statements.length) {r : String} :
    r ∈ (f.trackLive f.graph types cap).liveBefore p ↔ r ∈ f.usesAt (f.tracked types) p ∨
      (r ∉ f.defsAt (f.tracked types) p ∧ r ∈ (f.trackLive f.graph types cap).liveAfter p) := by
  obtain ⟨hbefore, hafter⟩ := liveFacts_at hf types cap hb hp
  rw [hbefore, hafter, mem_liveFrom hp]

end Function

/-! ## 5. The facts by ways on -/

section Facts

variable {types : TypeTable} {cap : Nat}

theorem getD_firstLive (b : Nat) : f.firstLive.ins.getD b ∅ = ∅ ∧ f.firstLive.outs.getD b ∅ = ∅ := by
  have hblank : (f.graph.order.foldl (fun m b => m.insert b ∅) (∅ : ExtTreeMap Nat Names)).getD b ∅ = ∅ := by
    rw [ExtTreeMap.getD_eq_getD_getElem?, getElem?_constant]
    split_ifs <;> rfl
  exact ⟨hblank, hblank⟩

/-- At first everything waits and nothing is live. -/
theorem LiveInvariant.start (f : Function) (tracked : Names) :
    LiveInvariant f tracked f.graph.order.reverse f.firstLive where
  behind b hb hnot := absurd (List.mem_reverse.mpr hb) hnot
  before b hb hnot := absurd (List.mem_reverse.mpr hb) hnot
  usedBefore b r hr := by
    rw [(getD_firstLive b).1] at hr
    exact absurd hr ExtTreeSet.not_mem_empty
  usedBehind b r hr := by
    rw [(getD_firstLive b).2] at hr
    exact absurd hr ExtTreeSet.not_mem_empty

theorem LiveInvariant.last (hf : f.WellFormed) (types : TypeTable) (cap : Nat) :
    ∃ left, LiveInvariant f (f.tracked types) left (f.lastLive types cap) ∧
      ((f.trackLive f.graph types cap).converged = true → left = []) :=
  Worklist.run_invariant (LiveInvariant f (f.tracked types)) (fun _ _ _ h => h.next hf) cap _ _ 0
    (.start f _)

/-- What is found live is used on some way on, whether the pass converged or not. -/
theorem liveAt_of_mem_liveBefore (hf : f.WellFormed) {p : Point} (hb : p.block ∈ f.graph.order)
    (hp : p.stmt ≤ (f.block p.block).statements.length) {r : String}
    (h : r ∈ (f.trackLive f.graph types cap).liveBefore p) : f.LiveAt (f.tracked types) p r := by
  obtain ⟨left, hinv, _⟩ := LiveInvariant.last hf types cap
  rw [(Function.liveFacts_at hf types cap hb hp).1] at h
  exact Function.liveAt_of_mem_liveFrom (hinv.usedBehind p.block) hp h

/-- When the pass converged, the same is live before a block as before its first point. -/
theorem liveIn_eq (hf : f.WellFormed) (hc : (f.trackLive f.graph types cap).converged = true) {b : Nat}
    (hb : b ∈ f.graph.order) : (f.trackLive f.graph types cap).liveIn.getD b ∅ =
      (f.trackLive f.graph types cap).liveBefore ⟨b, 0⟩ := by
  obtain ⟨left, hinv, hleft⟩ := LiveInvariant.last hf types cap
  rw [hleft hc] at hinv
  rw [(Function.liveFacts_at hf types cap hb (Nat.zero_le _)).1]
  exact hinv.before b hb List.not_mem_nil

/-- When the pass converged, live behind a point is what is live before a point control goes to next. -/
theorem mem_liveAfter (hf : f.WellFormed) (hc : (f.trackLive f.graph types cap).converged = true)
    {p : Point} (hb : p.block ∈ f.graph.order)
    (hp : p.stmt ≤ (f.block p.block).statements.length) {r : String} :
    r ∈ (f.trackLive f.graph types cap).liveAfter p ↔
      ∃ q, f.Step p q ∧ r ∈ (f.trackLive f.graph types cap).liveBefore q := by
  obtain ⟨left, hinv, hleft⟩ := LiveInvariant.last hf types cap
  rw [hleft hc] at hinv
  obtain ⟨b, n⟩ := p
  have hp : n ≤ (f.block b).statements.length := hp
  rcases Nat.lt_or_eq_of_le hp with hlt | heq
  · simp only [Function.step_next_iff hlt, exists_eq_left]
    rw [(Function.liveFacts_at hf types cap hb hp).2,
      (Function.liveFacts_at hf types cap (p := ⟨b, n + 1⟩) hb hlt).1]
    rw [Function.liveBehind, if_pos hlt]
  · have hexit : (⟨b, n⟩ : Point) = f.exitOf b := congrArg (Point.mk b) heq
    have hentry : ∀ t ∈ (f.block b).terminator.targets,
        (f.trackLive f.graph types cap).liveBefore ⟨t, 0⟩ = (f.lastLive types cap).ins.getD t ∅ :=
      fun t ht => (liveIn_eq hf hc (hf.graph_sound.closed b hb t (Function.mem_succsOf.mpr ht))).symm
    rw [hexit, ← Function.liveOut_eq hf types cap hb, Function.trackLive_liveOut,
      hinv.behind b hb List.not_mem_nil]
    simp only [Function.step_exit_iff, Function.mem_succsOf]
    constructor
    · intro h
      obtain ⟨t, ht, hr⟩ := h
      exact ⟨_, ⟨t, ht, rfl⟩, hentry t ht ▸ hr⟩
    · intro h
      obtain ⟨q, ⟨t, ht, rfl⟩, hr⟩ := h
      exact ⟨t, ht, hentry t ht ▸ hr⟩

/-- **When the pass converged, live before a point is what is used on some way on from it.** -/
theorem mem_liveBefore (hf : f.WellFormed) (hc : (f.trackLive f.graph types cap).converged = true)
    {p : Point} (hb : p.block ∈ f.graph.order)
    (hp : p.stmt ≤ (f.block p.block).statements.length) {r : String} :
    r ∈ (f.trackLive f.graph types cap).liveBefore p ↔ f.LiveAt (f.tracked types) p r := by
  refine ⟨liveAt_of_mem_liveBefore hf hb hp, fun h => ?_⟩
  induction h with
  | use hu => exact (Function.mem_liveBefore_step hf hb hp).mpr (Or.inl hu)
  | pass hd hs _ ih =>
    refine (Function.mem_liveBefore_step hf hb hp).mpr (Or.inr ⟨hd, ?_⟩)
    refine (mem_liveAfter hf hc hb hp).mpr ⟨_, hs, ?_⟩
    cases hs with
    | next h => exact ih hb h
    | jump ht => exact ih (hf.graph_sound.closed _ hb _ (Function.mem_succsOf.mpr ht)) (Nat.zero_le _)

end Facts

end Ownership
