import Ownership.Proofs.Moves.Outcomes

/-!
# The ownership pass over outcomes

The pass joins maps of states block by block and then writes one row for each point: the states
before it and its effects.

* `MoveStates.ListedNormal`, `movesPass`: a visit, as a visit of a forward pass over outcomes;
* `exists_moveRow`: when the pass converged, the row of a point that is reached has exactly the
  outcomes that occur along the routes to it;
* `reaches_of_moveRow`, `moveRow_unique`: rows are written once, and for points that are reached.
-/

namespace Ownership

open Std (ExtTreeMap)

variable {f : Function} {types : TypeTable}

/-! ## 1. Visits -/

/-- The maps before and behind blocks, as outcomes. -/
def MoveStates.insOutcomes (s : MoveStates) (b : Nat) : Option (Set (String × Option Path)) :=
  (s.ins.get? b).map MoveMap.outcomes

def MoveStates.outsOutcomes (s : MoveStates) (b : Nat) : Option (Set (String × Option Path)) :=
  (s.outs.get? b).map MoveMap.outcomes

/-- The maps before and behind blocks list every declared root, in a state that occurs. -/
structure MoveStates.ListedNormal (f : Function) (s : MoveStates) : Prop where
  ins : ∀ b m, s.ins.get? b = some m → m.ListedNormal f
  outs : ∀ b m, s.outs.get? b = some m → m.ListedNormal f

namespace Function

/-- The states before the `n`-th point of a block, from those before the block. -/
def statesThrough (f : Function) (types : TypeTable) (b : Nat) : Nat → MoveMap → MoveMap
  | 0, m => m
  | n + 1, m => Effect.applyAll (statesThrough f types b n m) (f.effectsAt types ⟨b, n⟩)

theorem statesThrough_listedNormal {b : Nat} {m : MoveMap} (h : m.ListedNormal f) (n : Nat) :
    (f.statesThrough types b n m).ListedNormal f := by
  induction n with
  | zero => exact h
  | succ n ih => exact ih.applyAll _

theorem outgoing_eq (b : Nat) (m : MoveMap) :
    f.outgoing types b m = f.statesThrough types b ((f.block b).statements.length + 1) m := by
  rw [outgoing, blockEffects_eq, pointsOf, Graph.points, List.map_map, List.foldl_map]
  induction (f.block b).statements.length + 1 with
  | zero => rfl
  | succ n ih =>
    rw [List.range_succ, List.foldl_append, ih]
    rfl

/-- The maps joined before a block, as far as they are known. -/
def knownMaps (f : Function) (outs : ExtTreeMap Nat MoveMap) (b : Nat) : List MoveMap :=
  (if b = 0 then [f.entryStates] else []) ++ (f.graph.livePreds b).filterMap outs.get?

theorem mem_knownMaps {outs : ExtTreeMap Nat MoveMap} {b : Nat} {m : MoveMap} :
    m ∈ f.knownMaps outs b ↔
      (b = 0 ∧ m = f.entryStates) ∨ ∃ p ∈ f.graph.livePreds b, outs.get? p = some m := by
  rw [knownMaps, List.mem_append, List.mem_filterMap]
  refine or_congr_left ?_
  split_ifs with h
  · simp [h]
  · simp [h]

theorem exists_incoming {outs : ExtTreeMap Nat MoveMap} {b : Nat}
    (hk : ∃ m, m ∈ f.knownMaps outs b) :
    ∃ m ms, f.knownMaps outs b = m :: ms ∧ f.incoming f.graph outs b = ms.foldl MoveMap.join m := by
  cases h : f.knownMaps outs b with
  | nil =>
    rw [h] at hk
    obtain ⟨m, hm⟩ := hk
    cases hm
  | cons m ms =>
    refine ⟨m, ms, rfl, ?_⟩
    unfold knownMaps at h
    rw [incoming, h]

theorem known_maps {s : MoveStates} {b : Nat} (hk : f.Known s.outsOutcomes b) :
    ∃ m, m ∈ f.knownMaps s.outs b := by
  rcases hk with hb | ⟨p, hp, hs⟩
  · exact ⟨_, mem_knownMaps.mpr (Or.inl ⟨hb, rfl⟩)⟩
  · rw [MoveStates.outsOutcomes, Option.isSome_map] at hs
    obtain ⟨m, hm⟩ := Option.isSome_iff_exists.mp hs
    exact ⟨m, mem_knownMaps.mpr (Or.inr ⟨p, hp, hm⟩)⟩

theorem incoming_outcomes {s : MoveStates} {b : Nat} (hk : f.Known s.outsOutcomes b) :
    (f.incoming f.graph s.outs b).outcomes =
      f.joined f.entryStates.outcomes s.outsOutcomes b := by
  obtain ⟨m, ms, hms, he⟩ := exists_incoming (known_maps hk)
  ext x
  rw [he, MoveMap.mem_outcomes_foldl_join, ← hms]
  simp only [mem_knownMaps, joined, MoveStates.outsOutcomes, Option.map_eq_some_iff]
  constructor
  · intro h
    obtain ⟨m', ⟨hb, rfl⟩ | ⟨p, hp, hm⟩, hx⟩ := h
    · exact Or.inl ⟨hb, hx⟩
    · exact Or.inr ⟨p, hp, _, ⟨m', hm, rfl⟩, hx⟩
  · intro h
    rcases h with ⟨hb, hx⟩ | ⟨p, hp, _, ⟨m', hm, rfl⟩, hx⟩
    · exact ⟨_, Or.inl ⟨hb, rfl⟩, hx⟩
    · exact ⟨m', Or.inr ⟨p, hp, hm⟩, hx⟩

theorem incoming_listedNormal {s : MoveStates} (hs : s.ListedNormal f) {b : Nat}
    (hk : f.Known s.outsOutcomes b) :
    (f.incoming f.graph s.outs b).ListedNormal f := by
  obtain ⟨m, ms, hms, he⟩ := exists_incoming (known_maps hk)
  have hm : m.ListedNormal f := by
    rcases mem_knownMaps.mp (hms ▸ List.mem_cons_self : m ∈ f.knownMaps s.outs b) with
      ⟨_, rfl⟩ | ⟨p, _, hp⟩
    · exact .entry f
    · exact hs.outs p m hp
  rw [he]
  clear hms he
  induction ms generalizing m with
  | nil => exact hm
  | cons n ms ih => exact ih _ (hm.join n)

/-- What a visit leaves: the maps of the other blocks, and at the visited one what came in and what
    goes out. -/
theorem visitMoves_ins (b : Nat) (s : MoveStates) :
    (f.visitMoves f.graph types b s).1.ins = s.ins.insert b (f.incoming f.graph s.outs b) := by
  rw [visitMoves]
  split_ifs <;> rfl

theorem visitMoves_outs (b c : Nat) (s : MoveStates) :
    (f.visitMoves f.graph types b s).1.outs.get? c =
      if c = b then some (f.outgoing types b (f.incoming f.graph s.outs b)) else s.outs.get? c := by
  rw [visitMoves]
  split_ifs with he hc hc
  · rw [hc]
    exact he
  · rfl
  · rw [hc]
    exact ExtTreeMap.getElem?_insert_self
  · exact getElem?_insert_ne hc

theorem visitMoves_woken (b : Nat) (s : MoveStates) :
    (f.visitMoves f.graph types b s).2 = f.graph.succsOf b ∨
      (f.visitMoves f.graph types b s).2 = [] ∧
        (f.visitMoves f.graph types b s).1.outs = s.outs := by
  rw [visitMoves]
  split_ifs
  · exact Or.inr ⟨rfl, rfl⟩
  · exact Or.inl rfl

theorem visitMoves_listedNormal {b : Nat} {s : MoveStates} (hs : s.ListedNormal f)
    (hk : f.Known s.outsOutcomes b) :
    (f.visitMoves f.graph types b s).1.ListedNormal f := by
  have hin := incoming_listedNormal hs hk
  refine ⟨fun c m hm => ?_, fun c m hm => ?_⟩
  · rw [visitMoves_ins] at hm
    by_cases hc : c = b
    · subst hc
      cases hm.symm.trans ExtTreeMap.getElem?_insert_self
      exact hin
    · exact hs.ins c m ((getElem?_insert_ne hc).symm.trans hm)
  · rw [visitMoves_outs] at hm
    split_ifs at hm
    · cases hm
      rw [outgoing_eq]
      exact statesThrough_listedNormal hin _
    · exact hs.outs c m hm

end Function

/-! ## 2. The pass -/

section Pass

variable {rule : Point → Set (String × Option Path) → Set (String × Option Path)}

/-- The rule says what the effects of each point do to outcomes. -/
def IsMoveRule (f : Function) (types : TypeTable)
    (rule : Point → Set (String × Option Path) → Set (String × Option Path)) : Prop :=
  ∀ p, Additive (rule p) ∧
    ∀ m, (Effect.applyAll m (f.effectsAt types p)).outcomes = rule p m.outcomes

theorem exists_moveRule (f : Function) (types : TypeTable) : ∃ rule, IsMoveRule f types rule := by
  choose rule h using fun p => Effect.exists_rule_all (f.effectsAt types p)
  exact ⟨rule, h⟩

theorem statesThrough_outcomes (h : IsMoveRule f types rule) (b n : Nat) (m : MoveMap) :
    (f.statesThrough types b n m).outcomes = through rule b n m.outcomes := by
  induction n with
  | zero => rfl
  | succ n ih => rw [Function.statesThrough, (h _).2, ih, through]

theorem statesAlong_outcomes (h : IsMoveRule f types rule) (ps : List Point) :
    (f.statesAlong types ps).outcomes = along rule f.entryStates.outcomes ps := by
  induction ps with
  | nil => rfl
  | cons p ps ih => rw [Function.statesAlong, (h _).2, ih, along]

/-- **A visit is a visit of a forward pass over outcomes.** -/
theorem movesPass (h : IsMoveRule f types rule) :
    ForwardPass f rule f.entryStates.outcomes (MoveStates.ListedNormal f) MoveStates.insOutcomes
      MoveStates.outsOutcomes (f.visitMoves f.graph types) where
  additive p := (h p).1
  good s b hs _ hk := Function.visitMoves_listedNormal hs hk
  before s b _ _ hk := by
    rw [MoveStates.insOutcomes, Function.visitMoves_ins, ← Function.incoming_outcomes hk]
    exact congrArg _ ExtTreeMap.getElem?_insert_self
  behind s b _ _ hk := by
    rw [MoveStates.outsOutcomes, Function.visitMoves_outs, if_pos rfl, Option.map_some,
      Function.outgoing_eq, statesThrough_outcomes h, Function.incoming_outcomes hk]
    rfl
  others s b _ _ _ c hc := by
    refine ⟨?_, ?_⟩
    · rw [MoveStates.insOutcomes, Function.visitMoves_ins]
      exact congrArg _ (getElem?_insert_ne hc)
    · rw [MoveStates.outsOutcomes, Function.visitMoves_outs, if_neg hc]
      rfl
  woken s b _ _ _ := by
    refine (Function.visitMoves_woken b s).imp id fun ⟨hw, ho⟩ => ⟨hw, ?_⟩
    rw [MoveStates.outsOutcomes, ho]
    rfl

end Pass

/-! ## 3. What is written down -/

namespace Function

/-- The maps at first: those at the entry. -/
def firstMoves (f : Function) : MoveStates := ⟨(∅ : ExtTreeMap Nat MoveMap).insert 0 f.entryStates, ∅⟩

/-- The maps when the worklist stops. -/
def lastMoves (f : Function) (types : TypeTable) (cap : Nat) : MoveStates :=
  (Worklist.run f.graph.order (f.visitMoves f.graph types) cap [0] f.firstMoves 0).state

/-- The rows of a visited block. -/
def moveRowsOf (f : Function) (types : TypeTable) (cap b : Nat) :
    List (Point × MoveMap × List Effect) :=
  match (f.lastMoves types cap).ins.get? b with
  | some m => pointStates m (f.blockEffects types b)
  | none => []

/-- All rows, from which the facts are taken. -/
def moveRows (f : Function) (types : TypeTable) (cap : Nat) : List (Point × MoveMap × List Effect) :=
  f.graph.order.flatMap (f.moveRowsOf types cap)

theorem trackMoves_before (cap : Nat) : (f.trackMoves f.graph types cap).before =
    writeRows Prod.fst (fun r => r.2.1) (f.moveRows types cap) ∅ := rfl

theorem trackMoves_events (cap : Nat) : (f.trackMoves f.graph types cap).events =
    (f.moveRows types cap).flatMap fun r => (Effect.trace r.2.1 r.2.2).filterMap fun t =>
      eventOf? f.graph (f.moveSites types) r.1 t.1 t.2 := rfl

theorem pointStates_eq (b : Nat) (m : MoveMap) : pointStates m (f.blockEffects types b) =
    (f.pointsOf b).map fun p => (p, f.statesThrough types b p.stmt m, f.effectsAt types p) := by
  -- from the `k`-th point on
  have hfrom : ∀ n k, pointStates (f.statesThrough types b k m)
      ((List.range' k n).map fun i => (Point.mk b i, f.effectsAt types ⟨b, i⟩)) =
      (List.range' k n).map fun i =>
        (Point.mk b i, f.statesThrough types b i m, f.effectsAt types ⟨b, i⟩) := by
    intro n
    induction n with
    | zero => exact fun k => rfl
    | succ n ih =>
      intro k
      rw [List.range'_succ, List.map_cons, List.map_cons, pointStates]
      exact congrArg _ (ih (k + 1))
  rw [blockEffects_eq, pointsOf, Graph.points, List.map_map, List.map_map, List.range_eq_range']
  exact hfrom _ 0

theorem mem_moveRowsOf {cap b : Nat} {p : Point} {m : MoveMap} {es : List Effect} :
    (p, m, es) ∈ f.moveRowsOf types cap b ↔ ∃ m₀, (f.lastMoves types cap).ins.get? b = some m₀ ∧
      p ∈ f.pointsOf b ∧ m = f.statesThrough types b p.stmt m₀ ∧ es = f.effectsAt types p := by
  rw [moveRowsOf]
  cases (f.lastMoves types cap).ins.get? b with
  | none => simp
  | some m₀ =>
    simp only [pointStates_eq, List.mem_map, Prod.mk.injEq, Option.some.injEq, exists_eq_left']
    constructor
    · intro h
      obtain ⟨q, hq, rfl, rfl, rfl⟩ := h
      exact ⟨hq, rfl, rfl⟩
    · intro h
      obtain ⟨hp, rfl, rfl⟩ := h
      exact ⟨p, hp, rfl, rfl, rfl⟩

theorem nodup_moveRows (hf : f.WellFormed) (cap : Nat) :
    ((f.moveRows types cap).map Prod.fst).Nodup := by
  refine nodup_rows hf.graph_sound.nodup (fun b => ?_) fun b r hr => ?_
  · rw [moveRowsOf]
    split
    · rw [pointStates_eq, List.map_map]
      exact (List.map_id _).symm ▸ nodup_pointsOf b
    · exact List.nodup_nil
  · obtain ⟨p, m, es⟩ := r
    obtain ⟨_, _, hp, _⟩ := mem_moveRowsOf.mp hr
    exact (mem_pointsOf.mp hp).1

theorem firstMoves_listedNormal (f : Function) : f.firstMoves.ListedNormal f := by
  refine ⟨fun b m hm => ?_, fun b m hm => ?_⟩
  · by_cases hb : b = 0
    · subst hb
      cases hm.symm.trans ExtTreeMap.getElem?_insert_self
      exact .entry f
    · cases hm.symm.trans ((getElem?_insert_ne hb).trans ExtTreeMap.getElem?_empty)
  · cases hm.symm.trans ExtTreeMap.getElem?_empty

end Function

/-! ## 4. The facts by routes -/

section Facts

variable {rule : Point → Set (String × Option Path) → Set (String × Option Path)} {cap : Nat}

theorem startInvariant (hf : f.WellFormed) :
    ForwardPass.Invariant f rule f.entryStates.outcomes (MoveStates.ListedNormal f) MoveStates.insOutcomes
      MoveStates.outsOutcomes [0] f.firstMoves := by
  refine .start hf f.firstMoves_listedNormal (fun b => ?_) fun b A hA => ?_
  · exact congrArg (Option.map MoveMap.outcomes) ExtTreeMap.getElem?_empty
  · obtain ⟨m, hm, rfl⟩ := Option.map_eq_some_iff.mp hA
    by_cases hb : b = 0
    · subst hb
      cases hm.symm.trans ExtTreeMap.getElem?_insert_self
      exact ⟨rfl, rfl⟩
    · cases hm.symm.trans ((getElem?_insert_ne hb).trans ExtTreeMap.getElem?_empty)

/-- The row of a point that is reached, when the pass converged. -/
theorem exists_moveRow (hf : f.WellFormed) (h : IsMoveRule f types rule)
    (hc : (f.trackMoves f.graph types cap).converged = true) {p : Point} (hp : f.Reaches p) :
    ∃ m, (p, m, f.effectsAt types p) ∈ f.moveRows types cap ∧ m.ListedNormal f ∧
      m.outcomes = f.collect rule f.entryStates.outcomes p := by
  obtain ⟨A, hA, hcol⟩ := (movesPass h).eq_collect hf (startInvariant hf) hc hp
  obtain ⟨m₀, hm₀, rfl⟩ := Option.map_eq_some_iff.mp hA
  obtain ⟨hord, hstmt⟩ := hp.choose_spec.mem_order hf
  have hlisted := ((movesPass h).good_final hf (startInvariant hf)).ins p.block m₀ hm₀
  refine ⟨f.statesThrough types p.block p.stmt m₀, ?_, Function.statesThrough_listedNormal hlisted _, ?_⟩
  · refine List.mem_flatMap.mpr ⟨p.block, hord, Function.mem_moveRowsOf.mpr ⟨m₀, hm₀, ?_, rfl, rfl⟩⟩
    exact Function.mem_pointsOf.mpr ⟨rfl, hstmt⟩
  · rw [statesThrough_outcomes h, hcol]

/-- Rows are written for points that are reached only. -/
theorem reaches_of_moveRow (hf : f.WellFormed) (h : IsMoveRule f types rule) {p : Point} {m : MoveMap}
    {es : List Effect} (hr : (p, m, es) ∈ f.moveRows types cap) : f.Reaches p := by
  obtain ⟨b, _, hr⟩ := List.mem_flatMap.mp hr
  obtain ⟨m₀, hm₀, hp, _⟩ := Function.mem_moveRowsOf.mp hr
  obtain ⟨rfl, hstmt⟩ := Function.mem_pointsOf.mp hp
  have hin : (f.lastMoves types cap).insOutcomes p.block = some m₀.outcomes := congrArg _ hm₀
  exact ((movesPass h).sub_collect hf (startInvariant hf) hin).1.within hstmt

theorem moveRow_unique (hf : f.WellFormed) {p : Point} {m m' : MoveMap} {es es' : List Effect}
    (h : (p, m, es) ∈ f.moveRows types cap) (h' : (p, m', es') ∈ f.moveRows types cap) :
    m = m' ∧ es = es' := by
  have he := List.inj_on_of_nodup_map (Function.nodup_moveRows hf cap) h h' rfl
  cases he
  exact ⟨rfl, rfl⟩

end Facts

end Ownership
