import Ownership.Proofs.Flow.Beyond
import Ownership.Proofs.Moves.Takers

/-!
# Who is blamed for a missing value

An event lists the points at which what it misses may have been taken away. The list is made from the
statements alone: it names those that empty something overlapping and come, by at least one step, before
the read. Whoever took a missing value along some route is on the list if it is a statement that comes
before the point of the read, and not if it is a branch on a value that it moves away, nor if it is an
earlier part of the statement that reads.

* `mem_movedAt_iff`: the points on the list of an event;
* `takers_blamed`: which of the takers are on it;
* `takers_unblamed`: two functions whose events say that nothing was ever there.
-/

namespace Ownership

open Relation (TransGen)

/-! ## 1. The points on the list -/

/-- What overlaps the part before the first dereference overlaps the whole path. -/
theorem Path.overlaps_of_direct {q p : Path} (hq : q.any Projection.isDeref = false)
    (h : Path.overlaps q (p.takeWhile fun s => !s.isDeref) = true) : Path.overlaps q p = true := by
  induction q generalizing p with
  | nil => rfl
  | cons s q ih =>
    obtain ⟨hs, hq⟩ := Bool.or_eq_false_iff.mp (List.any_cons.symm.trans hq)
    cases p with
    | nil => rfl
    | cons t p =>
      by_cases ht : t.isDeref = true
      · cases t with
        | deref =>
          cases s with
          | deref => cases hs
          | field n => rfl
          | index i => rfl
        | field n => cases ht
        | index i => cases ht
      · rw [List.takeWhile_cons_of_pos (by rw [Bool.not_eq_true] at ht; rw [ht]; rfl)] at h
        rw [Path.overlaps] at h ⊢
        split_ifs at h ⊢ with hst
        · exact ih hq h
        · exact h

namespace Function

variable {f : Function} {types : TypeTable} {s : Statement} {t : Place} {q : Point}

theorem release_not_mem_readEffects {r : Place} {a : Action} : .release t ∉ f.readEffects r a := by
  simp [readEffects, indexReads]

theorem release_not_mem_writeEffects {d : Place} : .release t ∉ f.writeEffects d := by
  unfold writeEffects
  split_ifs <;> simp [indexReads, release_not_mem_readEffects]

theorem release_not_mem_moveEffects {r : Place} : .release t ∉ f.moveEffects types r := by
  unfold moveEffects
  split_ifs <;> simp [release_not_mem_readEffects]

theorem release_not_mem_valueEffects {v : Value} : .release t ∉ f.valueEffects types v := by
  have hoperand : ∀ o, .release t ∉ f.operandEffects types o := by
    intro o
    cases o with
    | copy p => exact release_not_mem_readEffects
    | move p => exact release_not_mem_moveEffects
    | ref p k => exact release_not_mem_readEffects
    | literal l => exact List.not_mem_nil
  simp [valueEffects_eq, release_not_mem_readEffects, hoperand]

/-- Only a drop releases storage. -/
theorem release_mem_statementEffects :
    .release t ∈ f.statementEffects types s ↔ s = .drop t ∧ t.hasDeref = false := by
  cases s with
  | assign d v =>
    simp [statementEffects, release_not_mem_valueEffects, release_not_mem_writeEffects]
  | borrow d r k =>
    simp [statementEffects, release_not_mem_readEffects, release_not_mem_writeEffects]
  | move d r => simp [statementEffects, release_not_mem_moveEffects, release_not_mem_writeEffects]
  | eval v => simp [statementEffects, release_not_mem_valueEffects]
  | drop r =>
    rw [statementEffects]
    split_ifs with h
    · refine iff_of_false List.not_mem_nil fun hr => ?_
      cases hr.1
      exact absurd h (Bool.eq_false_iff.mp hr.2)
    · rw [List.mem_singleton, Effect.release.injEq, Statement.drop.injEq, eq_comm]
      refine ⟨fun hr => ⟨hr, ?_⟩, And.left⟩
      exact hr ▸ Bool.eq_false_iff.mpr h

theorem mem_emptied_eval {v : Value} :
    t ∈ f.emptied types (.eval v) ↔ .move t ∈ v.operands ∧ f.isMovable types t = true := by
  rw [emptied, List.mem_filterMap]
  constructor
  · intro h
    obtain ⟨o, ho, h⟩ := h
    cases o with
    | copy p => cases h
    | ref p k => cases h
    | literal l => cases h
    | move p =>
      obtain ⟨hp, he⟩ := Option.ite_none_right_eq_some.mp h
      cases he
      exact ⟨ho, hp⟩
  · intro h
    exact ⟨.move t, h.1, if_pos h.2⟩

/-- The places that the lists are made from are those that effects empty. -/
theorem mem_emptied_iff :
    t ∈ f.emptied types s ↔ ∃ e ∈ f.statementEffects types s, e.emptied? = some t := by
  have heffects : (∃ e ∈ f.statementEffects types s, e.emptied? = some t) ↔
      .take t ∈ f.statementEffects types s ∨ .release t ∈ f.statementEffects types s := by
    simp only [Effect.emptied?_eq_some, and_or_left, exists_or, exists_eq_right]
  rw [heffects, take_mem_statementEffects, release_mem_statementEffects, MovesOut, Statement.Takes]
  cases s with
  | assign d v =>
    refine mem_emptied_eval.trans ?_
    simp [Statement.value?]
  | borrow d r k => simp [emptied, Statement.value?]
  | move d r => simp [emptied, Statement.value?, @eq_comm _ t r]
  | eval v =>
    refine mem_emptied_eval.trans ?_
    simp [Statement.value?]
  | drop r => simp [emptied, Statement.value?, @eq_comm _ t r]

theorem mem_moveSites_iff : (q, t) ∈ f.moveSites types ↔
    (∃ s, f.statementAt? q = some s) ∧ ∃ e ∈ f.effectsAt types q, e.emptied? = some t := by
  rw [moveSites, List.mem_flatMap]
  constructor
  · intro h
    obtain ⟨b, _, h⟩ := h
    obtain ⟨⟨s, p⟩, hs, h⟩ := List.mem_flatMap.mp h
    obtain ⟨r, hr, hpair⟩ := List.mem_map.mp h
    cases hpair
    obtain ⟨_, hs⟩ := mem_statementsOf.mp hs
    refine ⟨⟨s, hs⟩, ?_⟩
    rw [effectsAt, hs]
    exact mem_emptied_iff.mp hr
  · intro h
    obtain ⟨⟨s, hs⟩, h⟩ := h
    rw [effectsAt, hs] at h
    refine ⟨q.block, ?_, List.mem_flatMap.mpr ⟨(s, q), mem_statementsOf.mpr ⟨rfl, hs⟩,
      List.mem_map.mpr ⟨t, mem_emptied_iff.mpr h, rfl⟩⟩⟩
    by_contra hout
    rw [List.mem_range, Nat.not_lt] at hout
    rw [statementAt?, block, List.getD_eq_getElem?_getD, List.getElem?_eq_none hout] at hs
    cases hs

/-- What a statement empties lies behind no dereference. -/
theorem hasDeref_of_emptied {e : Effect} (hs : f.statementAt? q = some s) (he : e ∈ f.effectsAt types q)
    (ht : e.emptied? = some t) : t.hasDeref = false := by
  rw [effectsAt, hs] at he
  rcases Effect.emptied?_eq_some.mp ht with rfl | rfl
  · obtain ⟨_, hmovable⟩ := take_mem_statementEffects.mp he
    exact Bool.not_eq_true' _ ▸ (Bool.and_eq_true_iff.mp hmovable).1
  · exact (release_mem_statementEffects.mp he).2

theorem mem_reachingSites_iff (hf : f.WellFormed) {place : Place} {p : Point}
    (hp : p.stmt ≤ (f.block p.block).statements.length) :
    q ∈ reachingSites f.graph (f.moveSites types) place p ↔
      ((∃ s, f.statementAt? q = some s) ∧ ∃ e ∈ f.effectsAt types q, ∃ t, e.emptied? = some t ∧
        t.overlaps place = true) ∧ TransGen f.Step q p := by
  rw [reachingSites, List.mem_mergeSort, List.mem_filterMap]
  have hbefore : ∀ {s}, f.statementAt? q = some s →
      (((q.block == p.block && q.stmt < p.stmt) || (f.graph.beyond q.block).contains p.block) = true ↔
        TransGen f.Step q p) := by
    intro s hs
    have hq : q.stmt ≤ (f.block q.block).statements.length :=
      Nat.le_of_lt (List.getElem?_eq_some_iff.mp hs).1
    rw [leads_iff hq hp, Bool.or_eq_true, Bool.and_eq_true, beq_iff_eq, decide_eq_true_iff,
      ← Graph.mem_beyond_iff hf.edge_lt]
    exact Iff.rfl
  constructor
  · intro h
    obtain ⟨⟨q', t⟩, hsite, h⟩ := h
    obtain ⟨h, he⟩ := Option.ite_none_right_eq_some.mp h
    cases he
    obtain ⟨⟨s, hs⟩, e, hmem, he⟩ := mem_moveSites_iff.mp hsite
    obtain ⟨hover, hlead⟩ := Bool.and_eq_true_iff.mp h
    exact ⟨⟨⟨s, hs⟩, e, hmem, t, he, hover⟩, (hbefore hs).mp hlead⟩
  · intro h
    obtain ⟨⟨⟨s, hs⟩, e, hmem, t, he, hover⟩, hlead⟩ := h
    refine ⟨(q, t), mem_moveSites_iff.mpr ⟨⟨s, hs⟩, e, hmem, he⟩, if_pos ?_⟩
    exact Bool.and_eq_true_iff.mpr ⟨hover, (hbefore hs).mpr hlead⟩

end Function

/-! ## 2. Events -/

variable {f : Function} {types : TypeTable} {cap : Nat}

theorem eventOf?_movedAt {g : Graph} {sites : List (Point × Place)} {p : Point} {m : MoveMap}
    {e : Effect} {ev : MoveEvent} (h : eventOf? g sites p m e = some ev) :
    ev.movedAt = reachingSites g sites ev.place ev.point ∧
      (ev.uninitialized = true → ev.movedAt = []) := by
  cases e with
  | take q => cases h
  | release q => cases h
  | fill q => cases h
  | read q a =>
    obtain ⟨_, _, rfl⟩ := Option.map_eq_some_iff.mp h
    refine ⟨rfl, fun hu => ?_⟩
    exact List.isEmpty_iff.mp (Bool.and_eq_true_iff.mp (Bool.and_eq_true_iff.mp hu).1).2

/-- **The points on the list of an event**: the statements that empty something overlapping and from
    which steps lead to the read. -/
theorem mem_movedAt_iff (hf : f.WellFormed) {ev : MoveEvent}
    (hev : ev ∈ (f.trackMoves f.graph types cap).events) {q : Point} :
    (q ∈ ev.movedAt ↔ ((∃ s, f.statementAt? q = some s) ∧ ∃ e ∈ f.effectsAt types q, ∃ t,
        e.emptied? = some t ∧ t.overlaps ev.place = true) ∧ TransGen f.Step q ev.point) ∧
      (q ∈ ev.movedAt → ev.uninitialized = false) := by
  rw [Function.trackMoves_events] at hev
  obtain ⟨⟨p, m, es⟩, hrow, hev⟩ := List.mem_flatMap.mp hev
  obtain ⟨⟨m', e⟩, _, hev⟩ := List.mem_filterMap.mp hev
  obtain ⟨hmoved, huninit⟩ := eventOf?_movedAt hev
  obtain ⟨b, _, hrow⟩ := List.mem_flatMap.mp hrow
  obtain ⟨_, _, hp, _⟩ := Function.mem_moveRowsOf.mp hrow
  obtain ⟨rfl, hp⟩ := Function.mem_pointsOf.mp hp
  refine ⟨?_, fun hq => Bool.eq_false_iff.mpr fun hu => ?_⟩
  · rw [hmoved]
    refine Function.mem_reachingSites_iff hf ?_
    rw [eventOf?_point hev]
    exact hp
  · rw [huninit hu] at hq
    cases hq

/-- **Which takers are blamed.** An event lists the statements that empty something overlapping and from
    which steps lead to the read, and one that lists any is not said to lack a value from the start.
    Along every route to the read, something is missing if a point took it and nothing filled it since, or
    if it was never set. The point is on the list if it is a statement, and not a terminator, and if the
    route had left it before it came to the read or a loop leads from it to itself. -/
theorem takers_blamed {d : Draft} (hv : d.validate types = .ok f) (cap : Nat) {ev : MoveEvent}
    (hev : ev ∈ (f.trackMoves f.graph types cap).events) :
    (∀ q, (q ∈ ev.movedAt ↔ ((∃ s, f.statementAt? q = some s) ∧ ∃ e ∈ f.effectsAt types q, ∃ t,
        e.emptied? = some t ∧ t.overlaps ev.place = true) ∧ TransGen f.Step q ev.point) ∧
      (q ∈ ev.movedAt → ev.uninitialized = false)) ∧
    ∀ ps done rest, f.Route ev.point ps →
      f.effectsAt types ev.point = done ++ .read ev.place ev.action :: rest →
      (f.Lacks types ps done ev.place ↔ (∃ q, f.TakenAt types ps ev.point done ev.place q) ∨
        f.NeverSet types ps ev.point done ev.place) ∧
      ∀ q, f.TakenAt types ps ev.point done ev.place q →
        (q ∈ ev.movedAt ↔ (∃ s, f.statementAt? q = some s) ∧ (q ∈ ps ∨ TransGen f.Step q q)) := by
  have hf := Draft.wellFormed_of_validate hv
  refine ⟨fun q => mem_movedAt_iff hf hev, fun ps done rest hr he => ?_⟩
  refine ⟨Function.lacks_iff he hf (Draft.closed_of_validate hv), fun q htaken => ?_⟩
  refine (mem_movedAt_iff hf hev).1.trans ?_
  obtain ⟨hq, e, hmem, t, ht, hover⟩ := htaken.exists_effect he
  constructor
  · intro h
    obtain ⟨⟨hs, _⟩, hlead⟩ := h
    exact ⟨hs, hq.imp_right fun heq => by rwa [← heq] at hlead⟩
  · intro h
    obtain ⟨⟨s, hs⟩, hway⟩ := h
    obtain ⟨hroot, hpath⟩ := Bool.and_eq_true_iff.mp hover
    have hfull : t.overlaps ev.place = true := Bool.and_eq_true_iff.mpr
      ⟨hroot, Path.overlaps_of_direct (Function.hasDeref_of_emptied hs hmem ht) hpath⟩
    refine ⟨⟨⟨s, hs⟩, e, hmem, t, ht, hfull⟩, ?_⟩
    rcases hway with hps | hloop
    · exact hr.leads hps
    · rcases hq with hps | rfl
      · exact hr.leads hps
      · exact hloop

/-- The value that is handed over on one of two ways is missed where they meet, and the statement that
    handed it over is blamed. -/
theorem takers_blamed_handOver :
    handOver.draft.validate handOverTypes = .ok handOver ∧
      ∃ ev ∈ (handOver.trackMoves handOver.graph handOverTypes 10).events,
        ev.point = ⟨2, 0⟩ ∧ ⟨1, 0⟩ ∈ ev.movedAt ∧ ev.uninitialized = false := by
  refine ⟨rfl, ?_⟩
  obtain ⟨ev, hev, hpoint, hplace, haction⟩ :
      ∃ ev ∈ (handOver.trackMoves handOver.graph handOverTypes 10).events,
        ev.point = ⟨2, 0⟩ ∧ ev.place = wholeLocal "v" ∧ ev.action = .use := by decide +kernel
  obtain ⟨hlist, htakers⟩ := takers_blamed (d := handOver.draft) (f := handOver) rfl 10 hev
  rw [hpoint, hplace, haction] at htakers
  have hroute : handOver.Route ⟨2, 0⟩ [⟨1, 1⟩, ⟨1, 0⟩, ⟨0, 1⟩, ⟨0, 0⟩] :=
    .step (.step (.step (.step .start (.next (by decide))) (.jump (b := 0) (by decide)))
      (.next (by decide))) (.jump (b := 1) (by decide))
  have htaken : handOver.TakenAt handOverTypes [⟨1, 1⟩, ⟨1, 0⟩, ⟨0, 1⟩, ⟨0, 0⟩] ⟨2, 0⟩ []
      (wholeLocal "v") ⟨1, 0⟩ :=
    ⟨wholeLocal "v", ⟨[(⟨0, 0⟩, .fill (wholeLocal "v")), (⟨0, 1⟩, .read ⟨⟨.param, "c"⟩, []⟩ .use),
      (⟨1, 0⟩, .read (wholeLocal "v") .move)], .take (wholeLocal "v"), [], rfl, rfl,
        fun _ h => nomatch h⟩, rfl⟩
  have hmem := ((htakers _ [] [] hroute rfl).2 _ htaken).mpr ⟨⟨_, rfl⟩, Or.inl (by decide)⟩
  exact ⟨ev, hev, hpoint, hmem, (hlist _).2 hmem⟩

/-- An event leaves out a point that took what it misses, and says that nothing was ever there. -/
def Function.OverlooksTaker (f : Function) (types : TypeTable) : Prop :=
  ∃ cap, (f.trackMoves f.graph types cap).converged = true ∧
    ∃ ev ∈ (f.trackMoves f.graph types cap).events, ∃ ps done rest q, f.Route ev.point ps ∧
      f.effectsAt types ev.point = done ++ .read ev.place ev.action :: rest ∧
      f.TakenAt types ps ev.point done ev.place q ∧ q ∉ ev.movedAt ∧ ev.uninitialized = true

/-- A function with the value `v` and the blocks. -/
def withValue (blocks : List Block) : Function where
  name := "withValue"
  params := []
  result := ⟨⟨.result, "_ret"⟩, []⟩
  locals := [("v", ⟨⟨.localVar, "v"⟩, some 2⟩), ("_ret", ⟨⟨.result, "_ret"⟩, some 3⟩)]
  blocks := blocks

/-- Both arguments of one call are the same value. -/
def handTwice : Function :=
  withValue [⟨[.assign (wholeLocal "v") (.alloc "Vec"),
    .eval (.call "pair" [.move (wholeLocal "v"), .move (wholeLocal "v")])], .ret⟩]

/-- A branch takes the value that is read behind it. -/
def handToBranch : Function :=
  withValue [⟨[.assign (wholeLocal "v") (.alloc "Vec")], .branch (.move (wholeLocal "v")) 1 2⟩,
    ⟨[.eval (.call "show" [.copy (wholeLocal "v")])], .ret⟩, ⟨[], .ret⟩]

/-- **Takers that are not blamed**: an earlier argument of the same call, and a branch. -/
theorem takers_unblamed :
    (handTwice.draft.validate handOverTypes = .ok handTwice ∧ handTwice.OverlooksTaker handOverTypes) ∧
      handToBranch.draft.validate handOverTypes = .ok handToBranch ∧
      handToBranch.OverlooksTaker handOverTypes := by
  refine ⟨⟨rfl, 10, by decide +kernel, ?_⟩, rfl, 10, by decide +kernel, ?_⟩
  · obtain ⟨ev, hev, hpoint, hplace, haction, hmoved, hun⟩ :
        ∃ ev ∈ (handTwice.trackMoves handTwice.graph handOverTypes 10).events, ev.point = ⟨0, 1⟩ ∧
          ev.place = wholeLocal "v" ∧ ev.action = .move ∧ ev.movedAt = [] ∧ ev.uninitialized = true := by
      decide +kernel
    refine ⟨ev, hev, [⟨0, 0⟩], [.read (wholeLocal "v") .move, .take (wholeLocal "v")],
      [.take (wholeLocal "v")], ⟨0, 1⟩, ?_, ?_, ?_, hmoved ▸ List.not_mem_nil, hun⟩
    · exact hpoint ▸ .step .start (.next (by decide))
    · rw [hpoint, hplace, haction]
      rfl
    · rw [hpoint, hplace]
      exact ⟨wholeLocal "v",
        ⟨[(⟨0, 0⟩, .fill (wholeLocal "v")), (⟨0, 1⟩, .read (wholeLocal "v") .move)],
          .take (wholeLocal "v"), [], rfl, rfl, fun _ h => nomatch h⟩, rfl⟩
  · obtain ⟨ev, hev, hpoint, hplace, haction, hmoved, hun⟩ :
        ∃ ev ∈ (handToBranch.trackMoves handToBranch.graph handOverTypes 10).events, ev.point = ⟨1, 0⟩ ∧
          ev.place = wholeLocal "v" ∧ ev.action = .use ∧ ev.movedAt = [] ∧ ev.uninitialized = true := by
      decide +kernel
    refine ⟨ev, hev, [⟨0, 1⟩, ⟨0, 0⟩], [], [], ⟨0, 1⟩, ?_, ?_, ?_, hmoved ▸ List.not_mem_nil, hun⟩
    · exact hpoint ▸ .step (.step .start (.next (by decide))) (.jump (b := 0) (by decide))
    · rw [hpoint, hplace, haction]
      rfl
    · rw [hpoint, hplace]
      exact ⟨wholeLocal "v",
        ⟨[(⟨0, 0⟩, .fill (wholeLocal "v")), (⟨0, 1⟩, .read (wholeLocal "v") .move)],
          .take (wholeLocal "v"), [], rfl, rfl, fun _ h => nomatch h⟩, rfl⟩

end Ownership
