import Mathlib.Algebra.BigOperators.Group.Finset.Basic
import Mathlib.Algebra.Ring.Nat
import Mathlib.Logic.Relation
import Ownership.Flow.Graph

/-!
# The depth-first walk is complete

The order in which the passes visit blocks is the list of blocks that the walk finished. A walk is
given as many steps as the graph has edges and blocks, and stops early in none of them:

* `Walk.Sound` is what every step preserves: the blocks met are the finished and the open ones, each
  once, edges lead to them from block 0, and every edge of a finished block leads to a block that was
  met;
* `Walk.cost` counts the steps that are left; every step takes one off (`cost_step`), so the walk
  ends with no block open (`stack_steps`);
* `Graph.predsOf_ofTargets`: entering edge by edge gives every block those that lead to it;
* `Graph.ofTargets_sound`: hence the order holds block 0 and, with a block, all its successors, and
  nothing else.
-/

namespace Ownership

namespace DepthFirst

variable {succs : Nat → List Nat} {n : Nat} {w : Walk}

/-- Edges lead from block 0 to the block. -/
def Leads (succs : Nat → List Nat) (b : Nat) : Prop :=
  Relation.ReflTransGen (fun a c => c ∈ succs a) 0 b

/-! ## 1. What a step preserves -/

/-- The walk has met `seen`: the finished blocks and the open ones. Edges out of them lead to blocks
    that were met, those of an open block that are still to be followed excepted. -/
structure Walk.Sound (succs : Nat → List Nat) (n : Nat) (w : Walk) : Prop where
  met : (w.finished ++ w.stack.map Prod.fst).Perm w.seen
  nodup : w.seen.Nodup
  bound : ∀ b ∈ w.seen, b < n
  found : ∀ b ∈ w.seen, Leads succs b
  entry : 0 ∈ w.seen
  closed : ∀ b ∈ w.finished, ∀ s ∈ succs b, s ∈ w.seen
  followed : ∀ e ∈ w.stack, (∀ s ∈ e.2, s ∈ succs e.1) ∧ ∀ s ∈ succs e.1, s ∈ w.seen ∨ s ∈ e.2

theorem sound_start (h0 : 0 < n) : (Walk.start succs).Sound succs n where
  met := List.Perm.refl _
  nodup := List.nodup_singleton 0
  bound b hb := by rw [List.mem_singleton.mp hb]; exact h0
  found b hb := by rw [List.mem_singleton.mp hb]; exact .refl
  entry := List.mem_singleton_self 0
  closed b hb := absurd hb List.not_mem_nil
  followed e he := by
    rw [List.mem_singleton.mp he]
    exact ⟨fun _ hs => hs, fun _ hs => Or.inr hs⟩

/-- An edge that leads to a block met before is passed over. -/
theorem Walk.Sound.pass (h : w.Sound succs n) {b s : Nat} {ss : List Nat}
    {rest : List (Nat × List Nat)} (e : w.stack = (b, s :: ss) :: rest) (hs : s ∈ w.seen)
    (edges : List (Nat × Nat)) :
    Walk.Sound succs n { w with stack := (b, ss) :: rest, retreating := edges } where
  met := by
    have := h.met
    rw [e] at this
    exact this
  nodup := h.nodup
  bound := h.bound
  found := h.found
  entry := h.entry
  closed := h.closed
  followed q hq := by
    rcases List.mem_cons.mp hq with rfl | hq
    · obtain ⟨h1, h2⟩ := h.followed (b, s :: ss) (by rw [e]; exact List.mem_cons_self)
      refine ⟨fun t ht => h1 t (List.mem_cons_of_mem _ ht), fun t ht => ?_⟩
      rcases h2 t ht with hm | hm
      · exact Or.inl hm
      · rcases List.mem_cons.mp hm with rfl | hm
        · exact Or.inl hs
        · exact Or.inr hm
    · exact h.followed q (by rw [e]; exact List.mem_cons_of_mem _ hq)

/-- A block without edges left is finished. -/
theorem Walk.Sound.finish (h : w.Sound succs n) {b : Nat} {rest : List (Nat × List Nat)}
    (e : w.stack = (b, []) :: rest) :
    Walk.Sound succs n { w with stack := rest, finished := b :: w.finished } where
  met := by
    have := h.met
    rw [e, List.map_cons] at this
    exact (List.perm_middle.symm).trans this
  nodup := h.nodup
  bound := h.bound
  found := h.found
  entry := h.entry
  closed c hc s hs := by
    rcases List.mem_cons.mp hc with rfl | hc
    · obtain ⟨_, h2⟩ := h.followed (c, []) (by rw [e]; exact List.mem_cons_self)
      exact (h2 s hs).resolve_right List.not_mem_nil
    · exact h.closed c hc s hs
  followed q hq := h.followed q (by rw [e]; exact List.mem_cons_of_mem _ hq)

/-- The edge that is followed next starts at a block that was met. -/
theorem Walk.Sound.edge (h : w.Sound succs n) {b s : Nat} {ss : List Nat}
    {rest : List (Nat × List Nat)} (e : w.stack = (b, s :: ss) :: rest) : b ∈ w.seen ∧ s ∈ succs b := by
  have hopen : (b, s :: ss) ∈ w.stack := by
    rw [e]
    exact List.mem_cons_self
  have hmem : b ∈ w.stack.map Prod.fst := List.mem_map.mpr ⟨_, hopen, rfl⟩
  exact ⟨h.met.subset (List.mem_append_right _ hmem), (h.followed _ hopen).1 s List.mem_cons_self⟩

/-- A block not met before is opened. -/
theorem Walk.Sound.enter (hin : ∀ b < n, ∀ s ∈ succs b, s < n) (h : w.Sound succs n) {b s : Nat}
    {ss : List Nat} {rest : List (Nat × List Nat)} (e : w.stack = (b, s :: ss) :: rest)
    (hs : s ∉ w.seen) :
    Walk.Sound succs n { w with stack := (s, succs s) :: (b, ss) :: rest, seen := s :: w.seen } where
  met := by
    have := h.met
    rw [e] at this
    exact List.perm_middle.trans (this.cons s)
  nodup := List.nodup_cons.mpr ⟨hs, h.nodup⟩
  bound c hc := by
    rcases List.mem_cons.mp hc with rfl | hc
    · obtain ⟨hb, hmem⟩ := h.edge e
      exact hin b (h.bound b hb) c hmem
    · exact h.bound c hc
  found c hc := by
    rcases List.mem_cons.mp hc with rfl | hc
    · obtain ⟨hb, hmem⟩ := h.edge e
      exact (h.found b hb).tail hmem
    · exact h.found c hc
  entry := List.mem_cons_of_mem _ h.entry
  closed c hc t ht := List.mem_cons_of_mem _ (h.closed c hc t ht)
  followed q hq := by
    rcases List.mem_cons.mp hq with rfl | hq
    · exact ⟨fun _ ht => ht, fun _ ht => Or.inr ht⟩
    rcases List.mem_cons.mp hq with rfl | hq
    · obtain ⟨h1, h2⟩ := h.followed (b, s :: ss) (by rw [e]; exact List.mem_cons_self)
      refine ⟨fun t ht => h1 t (List.mem_cons_of_mem _ ht), fun t ht => ?_⟩
      rcases h2 t ht with hm | hm
      · exact Or.inl (List.mem_cons_of_mem _ hm)
      · rcases List.mem_cons.mp hm with rfl | hm
        · exact Or.inl List.mem_cons_self
        · exact Or.inr hm
    · obtain ⟨h1, h2⟩ := h.followed q (by rw [e]; exact List.mem_cons_of_mem _ hq)
      exact ⟨h1, fun t ht => (h2 t ht).imp (List.mem_cons_of_mem _) id⟩

/-- The three ways a step of a walk with an open block can go. The edge that is passed over leads to an
    open block, and is retreating, or to a finished one. -/
theorem Walk.step_cases (w : Walk) (h : w.Sound succs n) :
    (w.stack = [] ∧ w.step succs = w) ∨
    (∃ b rest, w.stack = (b, []) :: rest ∧
      w.step succs = { w with stack := rest, finished := b :: w.finished }) ∨
    (∃ b s ss rest edges, w.stack = (b, s :: ss) :: rest ∧ s ∈ w.seen ∧
      (s ∈ w.stack.map Prod.fst ∧ edges = (b, s) :: w.retreating ∨
        s ∈ w.finished ∧ edges = w.retreating) ∧
      w.step succs = { w with stack := (b, ss) :: rest, retreating := edges }) ∨
    (∃ b s ss rest, w.stack = (b, s :: ss) :: rest ∧ s ∉ w.seen ∧
      w.step succs = { w with stack := (s, succs s) :: (b, ss) :: rest, seen := s :: w.seen }) := by
  unfold Walk.step
  cases e : w.stack with
  | nil => exact Or.inl ⟨rfl, by simp⟩
  | cons q rest =>
    obtain ⟨b, _ | ⟨s, ss⟩⟩ := q
    · exact Or.inr (Or.inl ⟨b, rest, rfl, by simp⟩)
    · have hany : ((b, s :: ss) :: rest).any (fun frame => frame.1 == s) = true ↔
          s ∈ ((b, s :: ss) :: rest).map Prod.fst := by
        simp only [List.any_eq_true, List.mem_map, beq_iff_eq]
      by_cases hopen : ((b, s :: ss) :: rest).any (fun frame => frame.1 == s) = true
      · have hm := hany.mp hopen
        refine Or.inr (Or.inr (Or.inl ⟨b, s, ss, rest, _, rfl, ?_, Or.inl ⟨hm, rfl⟩, if_pos hopen⟩))
        exact h.met.subset (List.mem_append_right _ (e ▸ hm))
      · by_cases hseen : s ∈ w.seen
        · have hdone : s ∈ w.finished :=
            (List.mem_append.mp (h.met.mem_iff.mpr hseen)).resolve_right fun hm => hopen (hany.mpr (e ▸ hm))
          refine Or.inr (Or.inr (Or.inl
            ⟨b, s, ss, rest, w.retreating, rfl, hseen, Or.inr ⟨hdone, rfl⟩, ?_⟩))
          simp only [if_neg hopen, List.contains_iff_mem, hseen, if_true]
        · refine Or.inr (Or.inr (Or.inr ⟨b, s, ss, rest, rfl, hseen, ?_⟩))
          simp only [if_neg hopen, List.contains_iff_mem, hseen, if_false]

theorem Walk.Sound.step (hin : ∀ b < n, ∀ s ∈ succs b, s < n) (h : w.Sound succs n) :
    (w.step succs).Sound succs n := by
  rcases w.step_cases h with ⟨_, e⟩ | ⟨b, rest, hw, e⟩ | ⟨b, s, ss, rest, edges, hw, hs, _, e⟩ |
    ⟨b, s, ss, rest, hw, hs, e⟩ <;> rw [e]
  · exact h
  · exact h.finish hw
  · exact h.pass hw hs edges
  · exact h.enter hin hw hs

theorem Walk.Sound.steps (hin : ∀ b < n, ∀ s ∈ succs b, s < n) (k : Nat) (h : w.Sound succs n) :
    (w.steps succs k).Sound succs n := by
  induction k generalizing w with
  | zero => exact h
  | succ k ih => exact ih (h.step hin)

/-! ## 2. Every step counts -/

/-- The steps left: one for each edge and one for each block, of the blocks not met and of what is
    still open. -/
def Walk.cost (succs : Nat → List Nat) (n : Nat) (w : Walk) : Nat :=
  (∑ b ∈ (Finset.range n).filter (· ∉ w.seen), ((succs b).length + 1))
    + (w.stack.map fun e => e.2.length + 1).sum

theorem Walk.cost_step (hin : ∀ b < n, ∀ s ∈ succs b, s < n) (h : w.Sound succs n)
    (hne : w.stack ≠ []) : (w.step succs).cost succs n + 1 = w.cost succs n := by
  rcases w.step_cases h with ⟨hw, _⟩ | ⟨b, rest, hw, e⟩ | ⟨b, s, ss, rest, edges, hw, hs, _, e⟩ |
    ⟨b, s, ss, rest, hw, hs, e⟩
  · exact absurd hw hne
  · simp only [e, cost, hw, List.map_cons, List.sum_cons, List.length_nil]
    omega
  · simp only [e, cost, hw, List.map_cons, List.sum_cons, List.length_cons]
    omega
  · -- the block that is opened leaves the sum over the blocks not met
    have hb : s < n := (h.enter hin hw hs).bound s List.mem_cons_self
    have hsplit : (Finset.range n).filter (· ∉ s :: w.seen) =
        ((Finset.range n).filter (· ∉ w.seen)).erase s := by
      ext c
      simp only [Finset.mem_filter, Finset.mem_range, Finset.mem_erase, List.mem_cons, not_or]
      tauto
    have hmem : s ∈ (Finset.range n).filter (· ∉ w.seen) := by simp [hb, hs]
    have hsum := Finset.add_sum_erase _ (fun b => (succs b).length + 1) hmem
    simp only [e, cost, hw, hsplit, List.map_cons, List.sum_cons, List.length_cons]
    omega

theorem Walk.steps_of_done (k : Nat) (h : w.stack = []) : w.steps succs k = w := by
  induction k with
  | zero => rfl
  | succ k ih =>
    have e : w.step succs = w := by unfold Walk.step; rw [h]
    rw [Walk.steps, e]
    exact ih

/-- A walk with enough steps ends with no block open. -/
theorem Walk.stack_steps (hin : ∀ b < n, ∀ s ∈ succs b, s < n) (k : Nat) (h : w.Sound succs n)
    (hk : w.cost succs n ≤ k) : (w.steps succs k).stack = [] := by
  induction k generalizing w with
  | zero =>
    cases e : w.stack with
    | nil => exact e
    | cons q rest =>
      simp only [cost, e, List.map_cons, List.sum_cons] at hk
      omega
  | succ k ih =>
    by_cases hne : w.stack = []
    · rw [steps_of_done _ hne]
      exact hne
    · have := w.cost_step hin h hne
      exact ih (h.step hin) (by omega)

/-- Edges and blocks, counted block by block. -/
theorem sum_lengths (l : List (List Nat)) :
    ∑ b ∈ Finset.range l.length, ((l.getD b []).length + 1) = l.flatten.length + l.length := by
  induction l with
  | nil => rfl
  | cons a l ih =>
    rw [List.length_cons, Finset.sum_range_succ']
    simp only [List.getD_cons_succ, List.getD_cons_zero, ih, List.flatten_cons, List.length_append]
    omega

theorem cost_start (l : List (List Nat)) (h0 : 0 < l.length) :
    (Walk.start fun b => l.getD b []).cost (fun b => l.getD b []) l.length
      = l.flatten.length + l.length := by
  have hsplit : (Finset.range l.length).filter (· ∉ (Walk.start fun b => l.getD b []).seen) =
      (Finset.range l.length).erase 0 := by
    ext c
    simp only [Walk.start, Finset.mem_filter, Finset.mem_range, Finset.mem_erase, List.mem_singleton]
    tauto
  have hsum := Finset.add_sum_erase _ (fun b => (l.getD b []).length + 1) (Finset.mem_range.mpr h0)
  have htotal := sum_lengths l
  rw [Walk.cost, hsplit]
  simp only [Walk.start, List.map_cons, List.map_nil, List.sum_cons, List.sum_nil]
  omega

/-- **The walk ends with every block it met finished.** -/
theorem walk_done (l : List (List Nat)) (h0 : 0 < l.length) (hin : ∀ b, ∀ s ∈ l.getD b [], s < l.length) :
    (walk l).Sound (fun b => l.getD b []) l.length ∧ (walk l).stack = [] :=
  ⟨(sound_start h0).steps (fun b _ => hin b) _,
    Walk.stack_steps (fun b _ => hin b) _ (sound_start h0) (cost_start l h0).le⟩

end DepthFirst

/-! ## 3. The order of a graph -/

namespace Graph

/-- What the passes rely on: the order lists block 0 and, with a block, its successors, each once, and
    only blocks that edges lead to; successors and predecessors are two readings of the same edges. -/
structure Sound (g : Graph) : Prop where
  nodup : g.order.Nodup
  entry : 0 ∈ g.order
  closed : ∀ b ∈ g.order, ∀ t ∈ g.succsOf b, t ∈ g.order
  bound : ∀ b ∈ g.order, b < g.size
  found : ∀ b ∈ g.order, DepthFirst.Leads g.succsOf b
  preds : ∀ b < g.size, ∀ p, p ∈ g.predsOf b ↔ b ∈ g.succsOf p

variable {targets : List (List Nat)}

theorem succsOf_ofTargets (b : Nat) :
    (ofTargets targets).succsOf b = (targets.getD b []).eraseDups := by
  simp only [ofTargets, succsOf, List.getD_eq_getElem?_getD, List.getElem?_map]
  cases targets[b]? with
  | none => rfl
  | some ts => rfl

theorem mem_succsOf {b t : Nat} : t ∈ (ofTargets targets).succsOf b ↔ t ∈ targets.getD b [] := by
  rw [succsOf_ofTargets, List.mem_eraseDups]

theorem getElem?_enterFrom {preds : List (List Nat)} {p : Nat} {ts : List Nat} (hts : ts.Nodup) (b : Nat) :
    (enterFrom preds p ts)[b]? = preds[b]?.map (· ++ if b ∈ ts then [p] else []) := by
  induction ts generalizing preds with
  | nil => simp [enterFrom]
  | cons t ts ih =>
    obtain ⟨ht, hts⟩ := List.nodup_cons.mp hts
    show (enterFrom (preds.modify t (· ++ [p])) p ts)[b]? = _
    rw [ih hts, List.getElem?_modify]
    by_cases hb : t = b
    · subst hb
      simp [ht, Function.comp_def]
    · have hmem : b ∈ t :: ts ↔ b ∈ ts := by simp [Ne.symm hb]
      simp only [if_neg hb, hmem, id_map']

/-- Edges are entered block by block, those of later blocks behind those of earlier ones. -/
theorem getElem?_enterEdges {succs preds : List (List Nat)} (hts : ∀ ts ∈ succs, ts.Nodup) (k b : Nat) :
    ((succs.zipIdx k).foldl (fun preds x => enterFrom preds x.2 x.1) preds)[b]? =
      preds[b]?.map (· ++ ((succs.zipIdx k).filter fun x => x.1.contains b).map Prod.snd) := by
  induction succs generalizing preds k with
  | nil => simp
  | cons ts succs ih =>
    rw [List.zipIdx_cons, List.foldl_cons, ih fun us hus => hts us (List.mem_cons_of_mem _ hus),
      getElem?_enterFrom (hts ts List.mem_cons_self), Option.map_map, List.filter_cons]
    refine congrArg (Option.map · _) (funext fun ps => ?_)
    by_cases hb : b ∈ ts
    · simp [hb]
    · simp [hb]

theorem nodup_eraseDups (l : List Nat) : l.eraseDups.Nodup := by
  induction hn : l.length using Nat.strong_induction_on generalizing l with
  | _ n ih =>
    cases l with
    | nil => exact List.nodup_nil
    | cons a l =>
      rw [List.eraseDups_cons, List.nodup_cons]
      refine ⟨fun hmem => ?_, ih _ ?_ _ rfl⟩
      · have hne := (List.mem_filter.mp (List.mem_eraseDups.mp hmem)).2
        simp at hne
      · rw [← hn, List.length_cons]
        exact Nat.lt_succ_of_le (List.length_filter_le _ _)

/-- **Who leads to a block**: the blocks with an edge to it, in order. -/
theorem getElem?_preds (b : Nat) : (ofTargets targets).preds[b]? =
    if b < targets.length then some ((List.range targets.length).filter fun p =>
      ((ofTargets targets).succsOf p).contains b) else none := by
  have hnodup : ∀ ts ∈ targets.map List.eraseDups, ts.Nodup := fun ts hts => by
    obtain ⟨us, _, rfl⟩ := List.mem_map.mp hts
    exact nodup_eraseDups us
  -- the blocks with their numbers are the numbers with their blocks
  have hzip : (targets.map List.eraseDups).zipIdx =
      (List.range targets.length).map fun p => ((ofTargets targets).succsOf p, p) := by
    refine List.ext_getElem (by simp) fun i hi _ => ?_
    have hlt : i < targets.length := by simpa using hi
    simp [succsOf_ofTargets, hlt]
  refine (getElem?_enterEdges hnodup 0 b).trans ?_
  rw [hzip, List.filter_map, List.map_map]
  split_ifs with hb
  · simp [hb, Function.comp_def]
  · simp [hb]

theorem predsOf_ofTargets {b : Nat} (hb : b < targets.length) :
    (ofTargets targets).predsOf b = (List.range targets.length).filter fun p =>
      ((ofTargets targets).succsOf p).contains b := by
  rw [predsOf, List.getD_eq_getElem?_getD, getElem?_preds, if_pos hb, Option.getD_some]

theorem length_preds : (ofTargets targets).preds.length = targets.length := by
  refine Nat.le_antisymm (List.getElem?_eq_none_iff.mp ?_) (Nat.not_lt.mp fun h => ?_)
  · rw [getElem?_preds, if_neg (Nat.lt_irrefl _)]
  · have hnone := List.getElem?_eq_none (Nat.le_refl (ofTargets targets).preds.length)
    rw [getElem?_preds, if_pos h] at hnone
    cases hnone

theorem mem_predsOf {b p : Nat} (hb : b < targets.length) :
    p ∈ (ofTargets targets).predsOf b ↔ b ∈ (ofTargets targets).succsOf p := by
  rw [predsOf_ofTargets hb, List.mem_filter, List.mem_range, List.contains_iff_mem]
  refine ⟨fun h => h.2, fun h => ⟨?_, h⟩⟩
  -- a block with a successor is one of the blocks
  by_contra hp
  have hnil : (ofTargets targets).succsOf p = [] := by
    rw [succsOf_ofTargets, List.getD_eq_getElem?_getD, List.getElem?_eq_none (not_lt.mp hp)]
    rfl
  rw [hnil] at h
  exact List.not_mem_nil h

/-- **The graph of blocks that jump to blocks**: its order is closed under edges. -/
theorem ofTargets_sound (h0 : 0 < targets.length)
    (hin : ∀ b, ∀ t ∈ targets.getD b [], t < targets.length) : (ofTargets targets).Sound := by
  have hlen : (ofTargets targets).succs.length = targets.length := List.length_map _
  obtain ⟨hw, hdone⟩ := DepthFirst.walk_done (ofTargets targets).succs (hlen ▸ h0)
    fun b s hs => hlen ▸ hin b s (mem_succsOf.mp hs)
  have hmet : (ofTargets targets).order.Perm (DepthFirst.walk (ofTargets targets).succs).seen := by
    have := hw.met
    rw [hdone, List.map_nil, List.append_nil] at this
    exact this
  exact {
    nodup := hmet.nodup_iff.mpr hw.nodup
    entry := hmet.mem_iff.mpr hw.entry
    closed := fun b hb t ht => hmet.mem_iff.mpr (hw.closed b hb t ht)
    bound := fun b hb => hw.bound b (hmet.mem_iff.mp hb)
    found := fun b hb => hw.found b (hmet.mem_iff.mp hb)
    preds := fun b hb p => mem_predsOf (hlen ▸ hb) }

variable {g : Graph}

/-- The order lists the blocks that edges lead to. -/
theorem Sound.mem_order_iff (hg : g.Sound) {b : Nat} : b ∈ g.order ↔ DepthFirst.Leads g.succsOf b := by
  refine ⟨hg.found b, fun h => ?_⟩
  induction h with
  | refl => exact hg.entry
  | tail _ hs ih => exact hg.closed _ ih _ hs

theorem Sound.mem_livePreds (hg : g.Sound) {b p : Nat} (hb : b ∈ g.order) :
    p ∈ g.livePreds b ↔ p ∈ g.order ∧ b ∈ g.succsOf p := by
  rw [livePreds, List.mem_filter, hg.preds b (hg.bound b hb), isReachable, List.contains_iff_mem]
  exact and_comm

theorem Sound.mem_reachable (hg : g.Sound) {b : Nat} : b ∈ g.reachable ↔ b ∈ g.order := by
  rw [reachable, List.mem_filter, List.mem_range, isReachable, List.contains_iff_mem]
  exact ⟨fun h => h.2, fun h => ⟨hg.bound b h, h⟩⟩

end Graph

end Ownership
