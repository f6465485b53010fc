import Ownership.Proofs.Moves.Pass
import Ownership.Proofs.Verdict

/-!
# The ownership pass is exact

When the pass converged, a state is read off the states along single routes, and an event is recorded
exactly where some route reads what is missing on it.

* `Function.Misses`: a read along one route that finds something missing;
* `before_outcomes`: the states before a point that is reached, by the routes to it;
* `mem_events`: the events, by the routes that cause them;
* `states_exact`: both together, with what a good verdict says about routes.
-/

namespace Ownership

open Std (ExtTreeMap)

variable {f : Function} {types : TypeTable} {cap : Nat}

/-! ## 1. States -/

/-- On some route to the point, the path is among those of the root that are gone. -/
def Function.GoneAlong (f : Function) (types : TypeTable) (p : Point) (x : String) (q : Path) : Prop :=
  ∃ ps, f.Route p ps ∧ q ∈ ((f.statesAlong types ps).stateOf x).gone

theorem statesAlong_listedNormal (ps : List Point) : (f.statesAlong types ps).ListedNormal f := by
  induction ps with
  | nil => exact .entry f
  | cons p ps ih => exact ih.applyAll _

/-- The states before a point that is reached have the outcomes of the routes to it. -/
theorem before_outcomes (hf : f.WellFormed) (hc : (f.trackMoves f.graph types cap).converged = true)
    {p : Point} (hp : f.Reaches p) :
    ∃ m, (f.trackMoves f.graph types cap).before.get? p = some m ∧ m.ListedNormal f ∧
      ∀ x o, (m.stateOf x).Outcome o ↔
        ∃ ps : { ps // f.Route p ps }, ((f.statesAlong types ps.1).stateOf x).Outcome o := by
  obtain ⟨rule, h⟩ := exists_moveRule f types
  obtain ⟨m, hrow, hfine, hcol⟩ := exists_moveRow hf h hc hp
  refine ⟨m, ?_, hfine, fun x o => ?_⟩
  · rw [Function.trackMoves_before]
    exact getElem?_rows Prod.fst _ (Function.nodup_moveRows hf cap) hrow
  · have hx := Set.ext_iff.mp hcol (x, o)
    refine hx.trans ⟨?_, ?_⟩
    · intro hex
      obtain ⟨ps, hr, ho⟩ := hex
      rw [← statesAlong_outcomes h] at ho
      exact ⟨⟨ps, hr⟩, ho⟩
    · intro hex
      obtain ⟨⟨ps, hr⟩, ho⟩ := hex
      refine ⟨ps, hr, ?_⟩
      rw [← statesAlong_outcomes h]
      exact ho

/-! ## 2. Events -/

/-- Behind the points of one route, the effects of `p` read the place for the action at a moment at
    which a gone path overlaps it. -/
def Function.Misses (f : Function) (types : TypeTable) (ps : List Point) (p : Point) (place : Place)
    (action : Action) : Prop :=
  ∃ done rest, f.effectsAt types p = done ++ .read place action :: rest ∧
    ∃ q ∈ ((Effect.applyAll (f.statesAlong types ps) done).stateOf place.name).gone,
      Path.overlaps q place.directPath = true

theorem mem_trace {m m' : MoveMap} {e : Effect} {es : List Effect} :
    (m', e) ∈ Effect.trace m es ↔
      ∃ done rest, es = done ++ e :: rest ∧ m' = Effect.applyAll m done := by
  induction es generalizing m with
  | nil => simp [Effect.trace]
  | cons d es ih =>
    rw [Effect.trace, List.mem_cons, ih]
    constructor
    · intro h
      rcases h with he | ⟨done, rest, rfl, rfl⟩
      · cases he
        exact ⟨[], es, rfl, rfl⟩
      · exact ⟨d :: done, rest, rfl, rfl⟩
    · intro h
      obtain ⟨done, rest, he, rfl⟩ := h
      cases done with
      | nil =>
        cases he
        exact Or.inl rfl
      | cons c done =>
        cases he
        exact Or.inr ⟨done, rest, rfl, rfl⟩

theorem eventOf?_some {g : Graph} {sites : List (Point × Place)} {p : Point} {m : MoveMap}
    {e : Effect} {place : Place} {action : Action} :
    (∃ ev, eventOf? g sites p m e = some ev ∧ ev.place = place ∧ ev.action = action) ↔
      e = .read place action ∧
        ∃ q ∈ (m.stateOf place.name).gone, Path.overlaps q place.directPath = true := by
  rw [← MoveState.missing?_ne_none]
  constructor
  · intro h
    obtain ⟨ev, hev, rfl, rfl⟩ := h
    cases e with
    | read q a =>
      obtain ⟨path, hpath, rfl⟩ := Option.map_eq_some_iff.mp hev
      exact ⟨rfl, fun hn => nomatch hpath.symm.trans hn⟩
    | take q => cases hev
    | release q => cases hev
    | fill q => cases hev
  · intro h
    obtain ⟨rfl, hne⟩ := h
    obtain ⟨path, hpath⟩ := Option.ne_none_iff_exists'.mp hne
    exact ⟨_, Option.map_eq_some_iff.mpr ⟨path, hpath, rfl⟩, rfl, rfl⟩

theorem eventOf?_point {g : Graph} {sites : List (Point × Place)} {p : Point} {m : MoveMap}
    {e : Effect} {ev : MoveEvent} (h : eventOf? g sites p m e = some ev) : ev.point = p := by
  cases e with
  | read q a =>
    obtain ⟨_, _, rfl⟩ := Option.map_eq_some_iff.mp h
    rfl
  | take q => cases h
  | release q => cases h
  | fill q => cases h

/-- The events recorded at a point, by the states of its row. -/
theorem mem_events_iff_row {p : Point} {place : Place} {action : Action} :
    (∃ ev ∈ (f.trackMoves f.graph types cap).events,
        ev.point = p ∧ ev.place = place ∧ ev.action = action) ↔
      ∃ m es, (p, m, es) ∈ f.moveRows types cap ∧ ∃ done rest, es = done ++ .read place action :: rest ∧
        ∃ q ∈ ((Effect.applyAll m done).stateOf place.name).gone,
          Path.overlaps q place.directPath = true := by
  rw [Function.trackMoves_events]
  constructor
  · intro h
    obtain ⟨ev, hev, rfl, hplace⟩ := h
    obtain ⟨⟨p, m, es⟩, hrow, hev⟩ := List.mem_flatMap.mp hev
    obtain ⟨⟨m', e⟩, htrace, hev⟩ := List.mem_filterMap.mp hev
    obtain ⟨done, rest, rfl, rfl⟩ := mem_trace.mp htrace
    obtain ⟨rfl, hgone⟩ := eventOf?_some.mp ⟨ev, hev, hplace⟩
    rw [eventOf?_point hev]
    exact ⟨m, _, hrow, done, rest, rfl, hgone⟩
  · intro h
    obtain ⟨m, es, hrow, done, rest, rfl, hgone⟩ := h
    obtain ⟨ev, hev, hplace⟩ : ∃ ev, eventOf? f.graph (f.moveSites types) p (Effect.applyAll m done)
        (.read place action) = some ev ∧ ev.place = place ∧ ev.action = action :=
      eventOf?_some.mpr ⟨rfl, hgone⟩
    refine ⟨ev, List.mem_flatMap.mpr ⟨_, hrow, List.mem_filterMap.mpr
      ⟨(Effect.applyAll m done, .read place action), ?_, hev⟩⟩, eventOf?_point hev, hplace⟩
    exact mem_trace.mpr ⟨done, rest, rfl, rfl⟩

/-- Part of the way through the effects of a point, what is gone is still what is gone along some
    route. -/
theorem gone_collect {rule : Point → Set (String × Option Path) → Set (String × Option Path)}
    (h : IsMoveRule f types rule) {p : Point} (hp : f.Reaches p) {m : MoveMap}
    (hcol : m.outcomes = f.collect rule f.entryStates.outcomes p) (done : List Effect) (x : String)
    (q : Path) :
    (∃ r ∈ ((Effect.applyAll m done).stateOf x).gone, Path.overlaps r q = true) ↔
      ∃ ps, f.Route p ps ∧
        ∃ r ∈ ((Effect.applyAll (f.statesAlong types ps) done).stateOf x).gone,
          Path.overlaps r q = true := by
  obtain ⟨r, hr, hrule⟩ := Effect.exists_rule_all done
  have hmem : ∀ o, (x, o) ∈ (Effect.applyAll m done).outcomes ↔ ∃ ps, f.Route p ps ∧
      (x, o) ∈ (Effect.applyAll (f.statesAlong types ps) done).outcomes := by
    intro o
    rw [hrule, hcol, hr.map_collect hp]
    simp only [hrule, statesAlong_outcomes h]
    exact Iff.rfl
  simp only [MoveState.gone_overlaps_iff]
  constructor
  · intro hx
    obtain ⟨r, hr, ho⟩ := hx
    obtain ⟨ps, hps, hr⟩ := (hmem (some r)).mp hr
    exact ⟨ps, hps, r, hr, ho⟩
  · intro hx
    obtain ⟨ps, hps, r, hr, ho⟩ := hx
    exact ⟨r, (hmem (some r)).mpr ⟨ps, hps, hr⟩, ho⟩

/-- **An event is recorded exactly where some route reads what is missing on it.** -/
theorem mem_events (hf : f.WellFormed) (hc : (f.trackMoves f.graph types cap).converged = true)
    {p : Point} {place : Place} {action : Action} :
    (∃ ev ∈ (f.trackMoves f.graph types cap).events,
        ev.point = p ∧ ev.place = place ∧ ev.action = action) ↔
      ∃ ps, f.Route p ps ∧ f.Misses types ps p place action := by
  obtain ⟨rule, h⟩ := exists_moveRule f types
  rw [mem_events_iff_row]
  constructor
  · intro hx
    obtain ⟨m, es, hrow, done, rest, rfl, hq⟩ := hx
    have hp := reaches_of_moveRow hf h hrow
    obtain ⟨m', hrow', _, hcol⟩ := exists_moveRow hf h hc hp
    obtain ⟨rfl, he⟩ := moveRow_unique hf hrow hrow'
    obtain ⟨ps, hps, hq⟩ := (gone_collect h hp hcol done _ _).mp hq
    exact ⟨ps, hps, done, rest, he.symm, hq⟩
  · intro hx
    obtain ⟨ps, hps, done, rest, he, hq⟩ := hx
    obtain ⟨m, hrow, _, hcol⟩ := exists_moveRow hf h hc ⟨ps, hps⟩
    exact ⟨m, _, hrow, done, rest, he, (gone_collect h ⟨ps, hps⟩ hcol done _ _).mpr ⟨ps, hps, hq⟩⟩

/-- No route of a function with a good verdict reads what is missing on it. -/
theorem not_misses_of_ok (hf : f.WellFormed) {s : Settings} (hok : (f.check types s).ok = true)
    {p : Point} {ps : List Point} (hps : f.Route p ps) (place : Place) (action : Action) :
    ¬ f.Misses types ps p place action := by
  intro hmiss
  obtain ⟨ev, hev, _⟩ := (mem_events hf (Function.ok_iff.mp hok).2.1).mpr ⟨ps, hps, hmiss⟩
  rw [Function.events_eq_nil hok] at hev
  cases hev

/-! ## 3. The pass and the routes -/

/-- **The ownership pass is exact.** When it converged, the state of every declared root before every
    point that is reached is owned, or moved, exactly if it is so along every route, and else lists
    exactly the shortest of the paths that are gone along some route; and an event is recorded exactly
    where some route reads what is missing on it. With a good verdict, no route does. -/
theorem states_exact {d : Draft} (hv : d.validate types = .ok f) :
    (∀ cap, (f.trackMoves f.graph types cap).converged = true →
      (∀ p, f.Reaches p → ∀ x ∈ f.locals.names,
        ∃ m st, (f.trackMoves f.graph types cap).before.get? p = some m ∧ m.get? x = some st ∧
          (st = .owned ↔ ∀ ps, f.Route p ps → (f.statesAlong types ps).get? x = some .owned) ∧
          (st = .moved ↔ ∀ ps, f.Route p ps → (f.statesAlong types ps).get? x = some .moved) ∧
          (st ≠ .owned → st ≠ .moved → ∃ gone, st = .partly gone ∧ ∀ q, q ∈ gone ↔
            f.GoneAlong types p x q ∧ ∀ q', f.GoneAlong types p x q' → q' <+: q → q' = q)) ∧
      ∀ p place action,
        (∃ ev ∈ (f.trackMoves f.graph types cap).events,
            ev.point = p ∧ ev.place = place ∧ ev.action = action) ↔
          ∃ ps, f.Route p ps ∧ f.Misses types ps p place action) ∧
    ∀ s : Settings, (f.check types s).ok = true → ∀ p ps, f.Route p ps → ∀ place action,
      ¬ f.Misses types ps p place action := by
  have hf := Draft.wellFormed_of_validate hv
  refine ⟨fun cap hc => ⟨fun p hp x hx => ?_, fun p place action => mem_events hf hc⟩,
    fun s hok p ps hps => not_misses_of_ok hf hok hps⟩
  have hlisted : ∀ {m : MoveMap}, m.ListedNormal f → m.get? x = some (m.stateOf x) := by
    intro m hm
    obtain ⟨st, hst⟩ := Option.isSome_iff_exists.mp
      (ExtTreeMap.mem_iff_isSome_getElem?.mp (hm.listed x hx))
    rw [MoveMap.stateOf_eq, hst]
    exact hst
  obtain ⟨m, hm, hfine, hout⟩ := before_outcomes hf hc hp
  refine ⟨m, m.stateOf x, hm, hlisted hfine, ?_, ?_, ?_⟩
  · simp only [hlisted (statesAlong_listedNormal _), Option.some.injEq]
    refine (MoveState.eq_owned_of_union (hfine.normal x) (fun ps => (statesAlong_listedNormal _).normal x)
      (hout x)).trans Subtype.forall
  · simp only [hlisted (statesAlong_listedNormal _), Option.some.injEq]
    exact (MoveState.eq_moved_of_union (hout x)).trans Subtype.forall
  · intro howned hmoved
    cases hst : m.stateOf x with
    | owned => exact absurd hst howned
    | moved => exact absurd hst hmoved
    | partly gone =>
      have hnormal := hfine.normal x
      have hunion := hout x
      rw [hst] at hnormal hunion
      refine ⟨gone, rfl, fun q => (MoveState.mem_gone_of_union hnormal hunion q).trans ?_⟩
      simp only [Function.GoneAlong, Subtype.exists, exists_prop]

/-- The types of the example below. -/
def handOverTypes : TypeTable := { defs := [⟨"Bool", .scalar⟩, ⟨"Vec", .owned⟩, ⟨"Int", .scalar⟩] }

/-- A value is handed over on one of two ways and read where they meet. -/
def handOver : Function where
  name := "handOver"
  params := [⟨⟨.param, "c"⟩, []⟩]
  result := ⟨⟨.result, "_ret"⟩, []⟩
  locals := [("c", ⟨⟨.param, "c"⟩, some 1⟩), ("v", ⟨⟨.localVar, "v"⟩, some 2⟩),
    ("_ret", ⟨⟨.result, "_ret"⟩, some 3⟩)]
  blocks := [
    ⟨[.assign ⟨⟨.localVar, "v"⟩, []⟩ (.alloc "Vec")], .branch (.copy ⟨⟨.param, "c"⟩, []⟩) 1 2⟩,
    ⟨[.eval (.call "send" [.move ⟨⟨.localVar, "v"⟩, []⟩])], .goto 2⟩,
    ⟨[.eval (.call "show" [.copy ⟨⟨.localVar, "v"⟩, []⟩])], .ret⟩]

/-- Where the ways meet, the value is gone on one of them only, and a route misses it. -/
theorem states_exact_handOver :
    handOver.draft.validate handOverTypes = .ok handOver ∧
      (handOver.trackMoves handOver.graph handOverTypes 10).converged = true ∧
      ((∃ ps, handOver.Route ⟨2, 0⟩ ps ∧
          (handOver.statesAlong handOverTypes ps).get? "v" ≠ some .owned) ∧
        ∃ ps, handOver.Route ⟨2, 0⟩ ps ∧
          (handOver.statesAlong handOverTypes ps).get? "v" ≠ some .moved) ∧
      ∃ ps, handOver.Route ⟨2, 0⟩ ps ∧
        handOver.Misses handOverTypes ps ⟨2, 0⟩ ⟨⟨.localVar, "v"⟩, []⟩ .use := by
  have hc : (handOver.trackMoves handOver.graph handOverTypes 10).converged = true := by decide +kernel
  obtain ⟨hstates, hevents⟩ := (states_exact (d := handOver.draft) (f := handOver) rfl).1 10 hc
  refine ⟨rfl, hc, ?_, (hevents _ _ _).mp (by decide +kernel)⟩
  have hr : handOver.Reaches ⟨2, 0⟩ :=
    Function.Reaches.jump ⟨[], .start⟩ (List.mem_cons_of_mem _ List.mem_cons_self)
  obtain ⟨m, st, hm, hst, howned, hmoved, -⟩ := hstates _ hr "v" (by decide)
  have hfound : (((handOver.trackMoves handOver.graph handOverTypes 10).before.get? ⟨2, 0⟩).bind
      (·.get? "v")) = some (.partly ((∅ : PathSet).insert [])) := by decide +kernel
  rw [hm, Option.bind_some, hst, Option.some.injEq] at hfound
  subst hfound
  constructor
  · by_contra hc
    push Not at hc
    cases howned.mpr hc
  · by_contra hc
    push Not at hc
    cases hmoved.mpr hc

end Ownership
