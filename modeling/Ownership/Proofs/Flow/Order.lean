import Mathlib.Data.List.Nodup
import Ownership.Proofs.Collections
import Ownership.Proofs.Flow.Walk

/-!
# The depth-first order

The walk lists the blocks it finished, the latest first. What is listed is laid down before: if the
open blocks are put in front of the finished ones, the outermost first, then a step of the walk adds at
most one block to this lineup and never changes the places of two blocks (`Walk.lineup`). So what is
known about an edge once it is followed stays known:

* `Ahead`: an edge that leads on in the lineup;
* `Walk.Lined` is what every step preserves: edges that lead on go from block 0 to every block, and
  from each open block to those opened after it; an edge that was followed leads on or is retreating,
  and a retreating edge leads back to where such edges came from;
* `Graph.Lined`: the same of the order of a graph; `Lined.mem_backEdges_iff` reads it by positions;
* `order_depth_first` says what the order promises.
-/

namespace Ownership

open Relation (ReflTransGen TransGen)
open scoped List

namespace DepthFirst

variable {succs : Nat → List Nat} {n : Nat} {w : Walk} {line line' : List Nat}

/-! ## 1. The lineup -/

/-- The blocks met so far as they will be listed: the open ones, the outermost first, and behind them
    the finished ones, the latest first. -/
def Walk.lineup (w : Walk) : List Nat := (w.stack.map Prod.fst).reverse ++ w.finished

/-- An edge that leads on in a list of blocks. -/
def Ahead (succs : Nat → List Nat) (line : List Nat) (a c : Nat) : Prop :=
  c ∈ succs a ∧ [a, c] <+ line

/-- A list with more blocks in it keeps the edges that lead on. -/
theorem Ahead.chain_mono (h : line <+ line') {a c : Nat} (hc : ReflTransGen (Ahead succs line) a c) :
    ReflTransGen (Ahead succs line') a c :=
  hc.lift id fun _ _ e => ⟨e.1, e.2.trans h⟩

/-- In a list without repeats, edges that lead on lead to later positions. -/
theorem idxOf_lt_of_sublist (hnd : line.Nodup) {a c : Nat} (h : [a, c] <+ line) :
    line.idxOf a < line.idxOf c := by
  induction line with
  | nil => cases h
  | cons x line ih =>
    obtain ⟨hx, hnd⟩ := List.nodup_cons.mp hnd
    have hne : ∀ {y}, y ∈ line → x ≠ y := fun hy e => hx (e ▸ hy)
    cases h with
    | cons _ h =>
      have ha : a ∈ line := h.subset List.mem_cons_self
      have hc : c ∈ line := h.subset (List.mem_cons_of_mem _ List.mem_cons_self)
      rw [List.idxOf_cons_ne _ (hne ha), List.idxOf_cons_ne _ (hne hc)]
      exact Nat.succ_lt_succ (ih hnd h)
    | cons_cons _ h =>
      rw [List.idxOf_cons_self, List.idxOf_cons_ne _ (hne (List.singleton_sublist.mp h))]
      exact Nat.succ_pos _

theorem Ahead.idxOf_le (hnd : line.Nodup) {a c : Nat} (h : ReflTransGen (Ahead succs line) a c) :
    line.idxOf a ≤ line.idxOf c := by
  induction h with
  | refl => exact Nat.le_refl _
  | tail _ he ih => exact ih.trans (idxOf_lt_of_sublist hnd he.2).le

/-- A finished block stands behind the innermost open one. -/
theorem Walk.sublist_lineup {b s : Nat} {ss : List Nat} {rest : List (Nat × List Nat)}
    (e : w.stack = (b, ss) :: rest) (hs : s ∈ w.finished) : [b, s] <+ w.lineup := by
  rw [lineup, e, List.map_cons, List.reverse_cons, List.append_assoc, List.singleton_append]
  exact ((List.singleton_sublist.mpr hs).cons_cons b).trans (List.sublist_append_right _ _)

/-- What the open blocks have still to follow: the next edge of the innermost one, and what is left
    without it. -/
theorem Walk.waiting_cases {b s : Nat} {ss : List Nat} {rest : List (Nat × List Nat)}
    (e : w.stack = (b, s :: ss) :: rest) {f : Nat × List Nat} (hf : f ∈ w.stack) {t : Nat} (ht : t ∈ f.2) :
    (f.1 = b ∧ t = s) ∨ ∃ x ∈ (b, ss) :: rest, x.1 = f.1 ∧ t ∈ x.2 := by
  rw [e] at hf
  rcases List.mem_cons.mp hf with rfl | hf
  · rcases List.mem_cons.mp ht with rfl | ht
    · exact Or.inl ⟨rfl, rfl⟩
    · exact Or.inr ⟨_, List.mem_cons_self, rfl, ht⟩
  · exact Or.inr ⟨f, List.mem_cons_of_mem _ hf, rfl, ht⟩

/-! ## 2. What a step preserves -/

/-- The edges followed so far, in the lineup. -/
structure Walk.Lined (succs : Nat → List Nat) (w : Walk) : Prop where
  first : w.lineup.head? = some 0
  spanned : ∀ b ∈ w.lineup, ReflTransGen (Ahead succs w.lineup) 0 b
  nested : (w.stack.map Prod.fst).Pairwise fun inner outer =>
    ReflTransGen (Ahead succs w.lineup) outer inner
  closing : ∀ e ∈ w.retreating, e.1 ∈ w.lineup ∧ e.2 ∈ succs e.1 ∧
    ReflTransGen (Ahead succs w.lineup) e.2 e.1
  followed : ∀ b ∈ w.lineup, ∀ s ∈ succs b, (b, s) ∈ w.retreating ∨ [b, s] <+ w.lineup ∨
    ∃ e ∈ w.stack, e.1 = b ∧ s ∈ e.2

theorem lined_start : (Walk.start succs).Lined succs where
  first := rfl
  spanned b hb := by
    rw [List.mem_singleton.mp hb]
  nested := List.pairwise_singleton _ _
  closing e he := absurd he List.not_mem_nil
  followed b hb s hs := by
    rw [List.mem_singleton.mp hb] at hs ⊢
    exact Or.inr (Or.inr ⟨_, List.mem_singleton_self _, rfl, hs⟩)

namespace Walk.Lined

variable {b s : Nat} {ss : List Nat} {rest : List (Nat × List Nat)}

/-- A block that is finished stays where it is in the lineup. -/
theorem finish (h : w.Lined succs) (e : w.stack = (b, []) :: rest) :
    Walk.Lined succs { w with stack := rest, finished := b :: w.finished } := by
  have hline : Walk.lineup { w with stack := rest, finished := b :: w.finished } = w.lineup := by
    simp [lineup, e]
  have hnested := h.nested
  rw [e, List.map_cons, List.pairwise_cons] at hnested
  refine ⟨hline ▸ h.first, hline ▸ h.spanned, hline ▸ hnested.2, hline ▸ h.closing, ?_⟩
  rw [hline]
  intro c hc t ht
  refine (h.followed c hc t ht).imp_right fun hleft => hleft.imp_right ?_
  intro hopen
  obtain ⟨f, hf, hfc, htf⟩ := hopen
  rw [e] at hf
  rcases List.mem_cons.mp hf with rfl | hf
  · exact absurd htf List.not_mem_nil
  · exact ⟨f, hf, hfc, htf⟩

/-- An edge to a block that was met is retreating if the block is open, and leads on if it is
    finished. -/
theorem pass (h : w.Lined succs) (hmem : s ∈ succs b) (e : w.stack = (b, s :: ss) :: rest)
    {edges : List (Nat × Nat)} (hedges : s ∈ w.stack.map Prod.fst ∧ edges = (b, s) :: w.retreating ∨
      s ∈ w.finished ∧ edges = w.retreating) :
    Walk.Lined succs { w with stack := (b, ss) :: rest, retreating := edges } := by
  have hline : Walk.lineup { w with stack := (b, ss) :: rest, retreating := edges } = w.lineup := by
    simp [lineup, e]
  have hmap : ((b, ss) :: rest).map Prod.fst = w.stack.map Prod.fst := by
    rw [e]
    rfl
  have hgrow : ∀ x ∈ w.retreating, x ∈ edges := by
    rcases hedges with ⟨_, rfl⟩ | ⟨_, rfl⟩
    · exact fun x hx => List.mem_cons_of_mem _ hx
    · exact fun x hx => hx
  -- the edge that is passed over
  have hedge : (b, s) ∈ edges ∨ [b, s] <+ w.lineup := by
    rcases hedges with ⟨_, rfl⟩ | ⟨hs, _⟩
    · exact Or.inl List.mem_cons_self
    · exact Or.inr (Walk.sublist_lineup e hs)
  refine ⟨hline ▸ h.first, hline ▸ h.spanned, ?_, ?_, ?_⟩
  · rw [hline, hmap]
    exact h.nested
  · rw [hline]
    intro x hx
    rcases hedges with ⟨hopen, rfl⟩ | ⟨_, rfl⟩
    · rcases List.mem_cons.mp hx with rfl | hx
      · refine ⟨by simp [lineup, e], hmem, ?_⟩
        have hnested := h.nested
        rw [e, List.map_cons] at hopen hnested
        rcases List.mem_cons.mp hopen with hsb | hopen
        · rw [hsb]
        · exact List.rel_of_pairwise_cons hnested hopen
      · exact h.closing x hx
    · exact h.closing x hx
  · rw [hline]
    intro c hc t ht
    rcases h.followed c hc t ht with hr | hl | ⟨f, hf, rfl, htf⟩
    · exact Or.inl (hgrow _ hr)
    · exact Or.inr (Or.inl hl)
    · rcases Walk.waiting_cases e hf htf with ⟨rfl, rfl⟩ | hopen
      · exact hedge.imp_right Or.inl
      · exact Or.inr (Or.inr hopen)

/-- A block that is opened comes behind the open ones and before the finished ones. -/
theorem enter (h : w.Lined succs) (hmem : s ∈ succs b) (e : w.stack = (b, s :: ss) :: rest) :
    Walk.Lined succs { w with stack := (s, succs s) :: (b, ss) :: rest, seen := s :: w.seen } := by
  have hline : Walk.lineup { w with stack := (s, succs s) :: (b, ss) :: rest, seen := s :: w.seen } =
      (w.stack.map Prod.fst).reverse ++ s :: w.finished := by
    simp [lineup, e]
  have hgrow : w.lineup <+ (w.stack.map Prod.fst).reverse ++ s :: w.finished :=
    List.Sublist.append_left (List.sublist_cons_self s w.finished) _
  have hb : b ∈ w.lineup := by simp [lineup, e]
  have hedge : Ahead succs ((w.stack.map Prod.fst).reverse ++ s :: w.finished) b s := by
    refine ⟨hmem, ?_⟩
    rw [e, List.map_cons, List.reverse_cons, List.append_assoc, List.singleton_append]
    exact (((List.nil_sublist _).cons_cons s).cons_cons b).trans (List.sublist_append_right _ _)
  have hback : ∀ c ∈ (w.stack.map Prod.fst).reverse ++ s :: w.finished, c = s ∨ c ∈ w.lineup := by
    intro c hc
    simp only [List.mem_append, List.mem_cons] at hc
    rw [lineup, List.mem_append]
    tauto
  refine ⟨?_, ?_, ?_, ?_, ?_⟩
  · rw [hline, e]
    have hfirst := h.first
    rw [lineup, e] at hfirst
    simpa using hfirst
  · rw [hline]
    intro c hc
    rcases hback c hc with rfl | hc
    · exact (Ahead.chain_mono hgrow (h.spanned b hb)).tail hedge
    · exact Ahead.chain_mono hgrow (h.spanned c hc)
  · have hnested := h.nested
    rw [hline]
    rw [e, List.map_cons] at hnested
    refine List.pairwise_cons.mpr ⟨fun c hc => ?_, hnested.imp fun hchain => Ahead.chain_mono hgrow hchain⟩
    rcases List.mem_cons.mp hc with rfl | hc
    · exact .single hedge
    · exact (Ahead.chain_mono hgrow (List.rel_of_pairwise_cons hnested hc)).tail hedge
  · rw [hline]
    intro x hx
    obtain ⟨hx, hsucc, hchain⟩ := h.closing x hx
    exact ⟨hgrow.subset hx, hsucc, Ahead.chain_mono hgrow hchain⟩
  · rw [hline]
    intro c hc t ht
    rcases hback c hc with rfl | hc
    · exact Or.inr (Or.inr ⟨_, List.mem_cons_self, rfl, ht⟩)
    rcases h.followed c hc t ht with hr | hl | ⟨f, hf, rfl, htf⟩
    · exact Or.inl hr
    · exact Or.inr (Or.inl (hl.trans hgrow))
    · rcases Walk.waiting_cases e hf htf with ⟨rfl, rfl⟩ | ⟨x, hx, hopen⟩
      · exact Or.inr (Or.inl hedge.2)
      · exact Or.inr (Or.inr ⟨x, List.mem_cons_of_mem _ hx, hopen⟩)

end Walk.Lined

/-- **A step keeps the lineup.** -/
theorem Walk.Lined.step (hs : w.Sound succs n) (h : w.Lined succs) : (w.step succs).Lined succs := by
  rcases w.step_cases hs with ⟨_, e⟩ | ⟨b, rest, hw, e⟩ | ⟨b, s, ss, rest, edges, hw, _, hedges, e⟩ |
    ⟨b, s, ss, rest, hw, _, e⟩ <;> rw [e]
  · exact h
  · exact h.finish hw
  · exact h.pass (hs.edge hw).2 hw hedges
  · exact h.enter (hs.edge hw).2 hw

theorem Walk.Lined.steps (hin : ∀ b < n, ∀ s ∈ succs b, s < n) (k : Nat) (hs : w.Sound succs n)
    (h : w.Lined succs) : (w.steps succs k).Lined succs := by
  induction k generalizing w with
  | zero => exact h
  | succ k ih => exact ih (hs.step hin) (h.step hs)

end DepthFirst

/-! ## 3. The order of a graph -/

namespace Graph

open DepthFirst (Ahead)

/-- The edges of a graph and its order: block 0 comes first, edges that lead on go from there to every
    block, and every edge leads on or closes a cycle of such edges. -/
structure Lined (g : Graph) : Prop where
  first : g.order.head? = some 0
  spanned : ∀ b ∈ g.order, ReflTransGen (Ahead g.succsOf g.order) 0 b
  closing : ∀ e ∈ g.backEdges, e.1 ∈ g.order ∧ e.2 ∈ g.succsOf e.1 ∧
    ReflTransGen (Ahead g.succsOf g.order) e.2 e.1
  followed : ∀ b ∈ g.order, ∀ s ∈ g.succsOf b, (b, s) ∈ g.backEdges ∨ [b, s] <+ g.order

variable {targets : List (List Nat)}

/-- When the walk is over, the lineup is the order. -/
theorem ofTargets_lined (h0 : 0 < targets.length)
    (hin : ∀ b, ∀ t ∈ targets.getD b [], t < targets.length) : (ofTargets targets).Lined := by
  have hlen : (ofTargets targets).succs.length = targets.length := List.length_map _
  have hin' : ∀ b, ∀ s ∈ (ofTargets targets).succs.getD b [], s < (ofTargets targets).succs.length :=
    fun b s hs => hlen ▸ hin b s (mem_succsOf.mp hs)
  have hdone := (DepthFirst.walk_done (ofTargets targets).succs (hlen ▸ h0) hin').2
  have hw : (DepthFirst.walk (ofTargets targets).succs).Lined (ofTargets targets).succsOf :=
    DepthFirst.lined_start.steps (fun b _ => hin' b) _ (DepthFirst.sound_start (hlen ▸ h0))
  have hline : (DepthFirst.walk (ofTargets targets).succs).lineup = (ofTargets targets).order := by
    rw [DepthFirst.Walk.lineup, hdone]
    rfl
  refine ⟨hline ▸ hw.first, hline ▸ hw.spanned, hline ▸ hw.closing, fun b hb s hs => ?_⟩
  rw [← hline] at hb ⊢
  refine (hw.followed b hb s hs).imp_right fun h => h.resolve_right ?_
  intro hopen
  obtain ⟨e, he, _⟩ := hopen
  rw [hdone] at he
  exact absurd he List.not_mem_nil

variable {g : Graph}

/-- **An edge closes a cycle if it does not lead to a later block.** -/
theorem Lined.mem_backEdges_iff (h : g.Lined) (hnd : g.order.Nodup) {u v : Nat} (hu : u ∈ g.order)
    (hv : v ∈ g.succsOf u) : (u, v) ∈ g.backEdges ↔ g.order.idxOf v ≤ g.order.idxOf u := by
  constructor
  · intro hback
    exact Ahead.idxOf_le hnd (h.closing _ hback).2.2
  · intro hle
    refine (h.followed u hu v hv).resolve_right fun hahead => ?_
    exact absurd (DepthFirst.idxOf_lt_of_sublist hnd hahead) (Nat.not_lt.mpr hle)

theorem Lined.idxOf_lt (h : g.Lined) (hnd : g.order.Nodup) {u v : Nat} (hu : u ∈ g.order)
    (hv : v ∈ g.succsOf u) (hnot : (u, v) ∉ g.backEdges) : g.order.idxOf u < g.order.idxOf v :=
  Nat.lt_of_not_le fun hle => hnot ((h.mem_backEdges_iff hnd hu hv).mpr hle)

/-- Positions grow along edges that lead to later blocks, so these close no cycle. -/
theorem acyclic_of_idxOf_lt (order : List Nat) {edge : Nat → Nat → Prop}
    (h : ∀ u v, edge u v → order.idxOf u < order.idxOf v) (b : Nat) : ¬ TransGen edge b b := by
  have hlt : ∀ {u v}, TransGen edge u v → order.idxOf u < order.idxOf v := by
    intro u v huv
    induction huv with
    | single he => exact h _ _ he
    | tail _ he ih => exact ih.trans (h _ _ he)
  exact fun hb => absurd (hlt hb) (Nat.lt_irrefl _)

/-! ## 4. What the order promises -/

/-- Block `b` jumps to block `t`. -/
def Jumps (targets : List (List Nat)) (b t : Nat) : Prop := t ∈ targets.getD b []

theorem mem_order_iff_jumps (hg : (ofTargets targets).Sound) {b : Nat} :
    b ∈ (ofTargets targets).order ↔ ReflTransGen (Jumps targets) 0 b := by
  have hjumps : (fun a c => c ∈ (ofTargets targets).succsOf a) = Jumps targets :=
    funext fun a => funext fun c => propext mem_succsOf
  rw [hg.mem_order_iff, DepthFirst.Leads, hjumps]

theorem getD_lt (hin : ∀ ts ∈ targets, ∀ t ∈ ts, t < targets.length) :
    ∀ b, ∀ t ∈ targets.getD b [], t < targets.length := by
  intro b t ht
  rw [List.getD_eq_getElem?_getD] at ht
  cases hb : targets[b]? with
  | none =>
    rw [hb] at ht
    exact absurd ht List.not_mem_nil
  | some ts =>
    rw [hb] at ht
    exact hin ts (List.mem_of_getElem? hb) t ht

theorem nodup_predsOf (b : Nat) : ((ofTargets targets).predsOf b).Nodup := by
  rw [predsOf, List.getD_eq_getElem?_getD, getElem?_preds]
  split_ifs
  · exact List.nodup_range.filter _
  · exact List.nodup_nil

/-- Only blocks are jumped to, so only blocks have predecessors. -/
theorem mem_succsOf_iff_mem_predsOf (hin : ∀ b, ∀ t ∈ targets.getD b [], t < targets.length)
    (b s : Nat) : s ∈ (ofTargets targets).succsOf b ↔ b ∈ (ofTargets targets).predsOf s := by
  by_cases hs : s < targets.length
  · exact (mem_predsOf hs).symm
  · have hnone : (ofTargets targets).predsOf s = [] := by
      rw [predsOf, List.getD_eq_getElem?_getD, getElem?_preds, if_neg hs]
      rfl
    rw [hnone, iff_false_right List.not_mem_nil]
    exact fun hmem => hs (hin b s (mem_succsOf.mp hmem))

theorem ofOpenTargets_some (h0 : targets ≠ []) :
    ofOpenTargets (targets.map some) = .ok (ofTargets targets) := by
  rw [ofOpenTargets, mapM_id_map_some]
  cases targets with
  | nil => exact absurd rfl h0
  | cons t ts => rfl

/-- What a depth-first order promises, given where the blocks jump to. -/
structure DepthFirstOrder (g : Graph) (targets : List (List Nat)) : Prop where
  /-- Successors and predecessors are two readings of the jumps, without repeats. -/
  succs : ∀ b s, s ∈ g.succsOf b ↔ Jumps targets b s
  preds : ∀ b s, s ∈ g.succsOf b ↔ b ∈ g.predsOf s
  nodup : ∀ b, (g.succsOf b).Nodup ∧ (g.predsOf b).Nodup
  /-- The blocks that jumps lead to from block 0. -/
  reachable : ∀ b, b ∈ g.reachable ↔ ReflTransGen (Jumps targets) 0 b
  /-- The order lists them, each once, and block 0 first. -/
  listed : g.order.Nodup ∧ ∀ b, b ∈ g.order ↔ b ∈ g.reachable
  first : g.order.head? = some 0
  /-- The edges that close a cycle are those that do not lead to a later block. -/
  back : ∀ u ∈ g.reachable, ∀ v ∈ g.succsOf u,
    (u, v) ∈ g.backEdges ↔ g.order.idxOf v ≤ g.order.idxOf u
  edges : ∀ e ∈ g.backEdges, e.1 ∈ g.reachable ∧ e.2 ∈ g.succsOf e.1
  /-- All others lead forward, and close no cycle among themselves. -/
  forward : ∀ u ∈ g.reachable, ∀ v ∈ g.succsOf u, (u, v) ∉ g.backEdges →
    g.order.idxOf u < g.order.idxOf v
  acyclic : ∀ b, ¬ TransGen (fun u v => u ∈ g.reachable ∧ v ∈ g.succsOf u ∧ (u, v) ∉ g.backEdges) b b

/-- **The depth-first order**: blocks that jump to blocks make a graph, whose order lists what is
    reached from block 0, and whose edges lead forward in it unless they close a cycle. -/
theorem order_depth_first (h0 : targets ≠ []) (hin : ∀ ts ∈ targets, ∀ t ∈ ts, t < targets.length) :
    ofOpenTargets (targets.map some) = .ok (ofTargets targets) ∧
      (ofTargets targets).DepthFirstOrder targets := by
  have hpos : 0 < targets.length := List.length_pos_iff.mpr h0
  have hin' := getD_lt hin
  have hg := ofTargets_sound hpos hin'
  have hline := ofTargets_lined hpos hin'
  refine ⟨ofOpenTargets_some h0, fun b s => mem_succsOf, mem_succsOf_iff_mem_predsOf hin', fun b => ?_,
    fun b => ?_, ⟨hg.nodup, fun b => hg.mem_reachable.symm⟩, hline.first, fun u hu v hv => ?_,
    fun e he => ?_, fun u hu v hv => ?_, acyclic_of_idxOf_lt (ofTargets targets).order fun u v huv => ?_⟩
  · rw [succsOf_ofTargets]
    exact ⟨nodup_eraseDups _, nodup_predsOf b⟩
  · rw [hg.mem_reachable]
    exact mem_order_iff_jumps hg
  · exact hline.mem_backEdges_iff hg.nodup (hg.mem_reachable.mp hu) hv
  · obtain ⟨hsource, hsucc, _⟩ := hline.closing e he
    exact ⟨hg.mem_reachable.mpr hsource, hsucc⟩
  · exact hline.idxOf_lt hg.nodup (hg.mem_reachable.mp hu) hv
  · exact hline.idxOf_lt hg.nodup (hg.mem_reachable.mp huv.1) huv.2.1 huv.2.2

/-- Blocks 1 and 2 make a loop that is entered at both of them, block 3 jumps to itself and back to
    block 0, and block 4 is dead. -/
def tangled : List (List Nat) := [[1, 2], [2, 2], [1, 3], [3, 0], [0]]

/-- The walk comes to block 2 through block 1, so the edge back to block 1 closes a cycle, and the edge
    from block 0 to block 2 does not. -/
theorem order_depth_first_tangled :
    (tangled ≠ [] ∧ ∀ ts ∈ tangled, ∀ t ∈ ts, t < tangled.length) ∧
      (ofTargets tangled).order = [0, 1, 2, 3] ∧
      (ofTargets tangled).backEdges = [(3, 0), (3, 3), (2, 1)] ∧
      (ofTargets tangled).DepthFirstOrder tangled := by
  have hne : tangled ≠ [] := List.cons_ne_nil _ _
  have hin : ∀ ts ∈ tangled, ∀ t ∈ ts, t < tangled.length := by decide
  exact ⟨⟨hne, hin⟩, by decide +kernel, by decide +kernel, (order_depth_first hne hin).2⟩

end Graph

end Ownership
