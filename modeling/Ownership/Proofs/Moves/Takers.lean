import Ownership.Proofs.Conflict.Coverage
import Ownership.Proofs.Moves.Exact
import Ownership.Proofs.Moves.Stops

/-!
# Who took what is missing

Along a single route one can say why a read finds something missing: some effect emptied a place that
overlaps what is read, and nothing has filled that place since, or nothing was ever put there.

* `Effect.outcome_applyAll_iff`: what is gone behind a list of effects, by the effect that took it;
* `Function.TakenAt`, `Function.NeverSet`: the two reasons, along one route;
* `Function.lacks_iff`: there is no other one;
* `Function.looked_of_read`: what is read has the root that its name stands for.
-/

namespace Ownership

open Std (ExtTreeMap)

/-! ## 1. What one effect leaves gone -/

namespace MoveState

variable {s : MoveState} {p r : Path}

/-- What is gone at a path is gone below it. -/
theorem outcome_iff_shorter :
    s.Outcome (some r) ↔ ∃ r', r' <+: r ∧ s.Outcome (some r') := by
  refine ⟨fun h => ⟨r, List.prefix_rfl, h⟩, fun h => ?_⟩
  obtain ⟨r', hr, q, hq, hpre⟩ := h
  exact ⟨q, hq, hpre.trans hr⟩

theorem outcome_afterMove_iff :
    (s.afterMove p).Outcome (some r) ↔ p <+: r ∨ s.Outcome (some r) := by
  by_cases hp : p = []
  · subst hp
    exact iff_of_true ((outcome_afterMove_nil s _).mpr (Option.some_ne_none r))
      (Or.inl List.nil_prefix)
  · rw [outcome_afterMove hp, or_comm]
    simp

theorem outcome_afterAssign_iff :
    (s.afterAssign p).Outcome (some r) ↔ ∃ r', r' <+: r ∧ s.Outcome (some r') ∧ ¬ p <+: r' := by
  by_cases hp : p = []
  · subst hp
    refine iff_of_false (mt (outcome_afterAssign_nil s _).mp (Option.some_ne_none r)) ?_
    intro h
    obtain ⟨r', _, _, h⟩ := h
    exact h List.nil_prefix
  · rw [outcome_afterAssign hp]
    constructor
    · intro h
      rcases h with ⟨h, _⟩ | ⟨_, r', h, ho, hno, hpre⟩
      · cases h
      · cases h
        exact ⟨r', hpre, ho, hno⟩
    · intro h
      obtain ⟨r', hpre, ho, hno⟩ := h
      exact Or.inr ⟨r, r', rfl, ho, hno, hpre⟩

end MoveState

/-- The place an effect leaves empty. -/
def Effect.emptied? : Effect → Option Place
  | .take p | .release p => some p
  | .read _ _ | .fill _ => none

/-- The effect puts a value at or above the path of the root. -/
def Effect.Restores (e : Effect) (x : String) (r : Path) : Prop :=
  ∃ d, e = .fill d ∧ d.name = x ∧ d.path <+: r

namespace Effect

variable {e : Effect} {m : MoveMap} {t : Place} {x : String} {r : Path}

theorem emptied?_eq_some : e.emptied? = some t ↔ e = .take t ∨ e = .release t := by
  cases e <;> simp [emptied?]

theorem apply_of_emptied (h : e.emptied? = some t) :
    e.apply m = m.insert t.name ((m.stateOf t.name).afterMove t.path) := by
  rcases emptied?_eq_some.mp h with rfl | rfl
  · rfl
  · rfl

theorem not_restores_of_emptied (h : e.emptied? = some t) : ¬ e.Restores x r := by
  intro hres
  obtain ⟨d, rfl, _⟩ := hres
  cases h

/-- What is gone stays gone where nothing is restored. -/
theorem outcome_iff_of_not_restores (h : ∀ r', ¬ e.Restores x r') : (m.stateOf x).Outcome (some r) ↔
    ∃ r', r' <+: r ∧ (m.stateOf x).Outcome (some r') ∧ ¬ e.Restores x r' := by
  simp only [h, not_false_eq_true, and_true]
  exact MoveState.outcome_iff_shorter

/-- **What is gone behind one effect**: what it took, and what was gone before at a path that it did not
    put a value at. -/
theorem outcome_apply_iff : ((e.apply m).stateOf x).Outcome (some r) ↔
    (∃ t, e.emptied? = some t ∧ t.name = x ∧ t.path <+: r) ∨
      ∃ r', r' <+: r ∧ (m.stateOf x).Outcome (some r') ∧ ¬ e.Restores x r' := by
  cases he : e.emptied? with
  | some p =>
    rw [apply_of_emptied he, ← outcome_iff_of_not_restores fun _ => not_restores_of_emptied he]
    by_cases hx : x = p.name
    · subst hx
      rw [MoveMap.stateOf_insert_self, MoveState.outcome_afterMove_iff]
      simp
    · rw [MoveMap.stateOf_insert_ne m _ hx]
      simp [Ne.symm hx]
  | none =>
    have hnone : ¬ ∃ t : Place, none = some t ∧ t.name = x ∧ t.path <+: r := by simp
    rw [or_iff_right hnone]
    cases e with
    | take p => cases he
    | release p => cases he
    | read p a =>
      refine outcome_iff_of_not_restores fun r' h => ?_
      obtain ⟨d, hd, _⟩ := h
      cases hd
    | fill p =>
      rw [apply]
      by_cases hx : x = p.name
      · subst hx
        rw [MoveMap.stateOf_insert_self, MoveState.outcome_afterAssign_iff]
        simp [Restores]
      · rw [MoveMap.stateOf_insert_ne m _ hx]
        refine outcome_iff_of_not_restores fun r' h => ?_
        obtain ⟨d, hd, hname, _⟩ := h
        cases hd
        exact hx hname.symm

/-! ## 2. What many effects leave gone -/

/-- Among the effects that took place, one at the point emptied the place, and no later one put a value
    at it or above. -/
def Took (done : List (Point × Effect)) (q : Point) (t : Place) : Prop :=
  ∃ earlier e later, done = earlier ++ (q, e) :: later ∧ e.emptied? = some t ∧
    ∀ y ∈ later, ¬ y.2.Restores t.name t.path

theorem took_cons {y : Point × Effect} {done : List (Point × Effect)} {q : Point} :
    Took (y :: done) q t ↔
      (y.1 = q ∧ y.2.emptied? = some t ∧ ∀ z ∈ done, ¬ z.2.Restores t.name t.path) ∨ Took done q t := by
  constructor
  · intro h
    obtain ⟨earlier, e, later, hsplit, he, hlater⟩ := h
    cases earlier with
    | nil =>
      cases hsplit
      exact Or.inl ⟨rfl, he, hlater⟩
    | cons z earlier =>
      cases hsplit
      exact Or.inr ⟨earlier, e, later, rfl, he, hlater⟩
  · intro h
    rcases h with ⟨rfl, he, hlater⟩ | ⟨earlier, e, later, rfl, he, hlater⟩
    · exact ⟨[], y.2, done, rfl, he, hlater⟩
    · exact ⟨y :: earlier, e, later, rfl, he, hlater⟩

theorem Took.mem {done : List (Point × Effect)} {q : Point} (h : Took done q t) :
    ∃ e, (q, e) ∈ done ∧ e.emptied? = some t := by
  obtain ⟨earlier, e, later, rfl, he, _⟩ := h
  exact ⟨e, List.mem_append_right _ List.mem_cons_self, he⟩

theorem Restores.mono {r' : Path} (h : e.Restores x r') (hr : r' <+: r) : e.Restores x r := by
  obtain ⟨d, he, hname, hpre⟩ := h
  exact ⟨d, he, hname, hpre.trans hr⟩

/-- **What is gone behind many effects**: what one of them took, and what was gone before, at a path that
    none of the later ones put a value at. -/
theorem outcome_applyAll_iff {done : List (Point × Effect)} :
    ((applyAll m (done.map Prod.snd)).stateOf x).Outcome (some r) ↔
      (∃ q t, Took done q t ∧ t.name = x ∧ t.path <+: r) ∨
        ∃ r', r' <+: r ∧ (m.stateOf x).Outcome (some r') ∧ ∀ y ∈ done, ¬ y.2.Restores x r' := by
  induction done generalizing m with
  | nil =>
    have hnone : ¬ ∃ q t, Took [] q t ∧ t.name = x ∧ t.path <+: r := by simp [Took]
    rw [or_iff_right hnone]
    refine MoveState.outcome_iff_shorter.trans ?_
    simp [applyAll]
  | cons y done ih =>
    rw [List.map_cons, applyAll_cons, ih]
    simp only [outcome_apply_iff, took_cons, List.forall_mem_cons]
    constructor
    · intro h
      rcases h with ⟨q, t, htook, ht⟩ | ⟨r', hr', ⟨t, he, rfl, hpre⟩ | ⟨r'', hr'', ho, hno⟩, hlater⟩
      · exact Or.inl ⟨q, t, Or.inr htook, ht⟩
      · refine Or.inl ⟨y.1, t, Or.inl ⟨rfl, he, fun z hz hres => ?_⟩, rfl, hpre.trans hr'⟩
        exact hlater z hz (hres.mono hpre)
      · refine Or.inr ⟨r'', hr''.trans hr', ho, hno, fun z hz hres => ?_⟩
        exact hlater z hz (hres.mono hr'')
    · intro h
      rcases h with ⟨q, t, ⟨_, he, hlater⟩ | htook, rfl, hpre⟩ | ⟨r', hr', ho, hno, hlater⟩
      · exact Or.inr ⟨t.path, hpre, Or.inl ⟨t, he, rfl, List.prefix_rfl⟩, hlater⟩
      · exact Or.inl ⟨q, t, htook, rfl, hpre⟩
      · exact Or.inr ⟨r', hr', Or.inr ⟨r', List.prefix_rfl, ho, hno⟩, hlater⟩

end Effect

/-! ## 3. What is read -/

/-- The effects read places whose roots are looked up. -/
def Effect.ReadsLooked (ls : Locals) (es : List Effect) : Prop := ∀ p a, .read p a ∈ es → ls.Looked p

namespace Effect.ReadsLooked

variable {ls : Locals} {es es' : List Effect}

theorem nil : ReadsLooked ls [] := fun _ _ hmem => absurd hmem List.not_mem_nil

theorem append (h : ReadsLooked ls es) (h' : ReadsLooked ls es') : ReadsLooked ls (es ++ es') :=
  fun p a hmem => (List.mem_append.mp hmem).elim (h p a) (h' p a)

theorem flatMap {α : Type} {g : α → List Effect} {xs : List α} (h : ∀ x ∈ xs, ReadsLooked ls (g x)) :
    ReadsLooked ls (xs.flatMap g) := by
  intro p a hmem
  obtain ⟨x, hx, hmem⟩ := List.mem_flatMap.mp hmem
  exact h x hx p a hmem

end Effect.ReadsLooked

namespace Function

open Effect (ReadsLooked)

variable {f : Function} {types : TypeTable}

section Lists

variable (hf : f.WellFormed)

include hf

theorem indexReads_looked (p : Place) : ReadsLooked f.locals (f.indexReads p) := by
  intro q a hmem
  obtain ⟨v, _, hv⟩ := List.mem_map.mp hmem
  cases hv
  exact hf.looked_rootOf v

theorem readEffects_looked {p : Place} (hp : f.locals.Looked p) (a : Action) :
    ReadsLooked f.locals (f.readEffects p a) := by
  refine (indexReads_looked hf p).append fun q b hmem => ?_
  cases List.mem_singleton.mp hmem
  exact hp

theorem moveEffects_looked {p : Place} (hp : f.locals.Looked p) :
    ReadsLooked f.locals (f.moveEffects types p) := by
  unfold moveEffects
  split_ifs
  · refine (readEffects_looked hf hp .move).append fun q b hmem => ?_
    cases List.mem_singleton.mp hmem
  · exact readEffects_looked hf hp .use

theorem writeEffects_looked {p : Place} (hp : f.locals.Looked p) :
    ReadsLooked f.locals (f.writeEffects p) := by
  refine (indexReads_looked hf p).append ?_
  split_ifs
  · exact readEffects_looked hf (p := p.carrier) hp .use
  · intro q b hmem
    cases List.mem_singleton.mp hmem

theorem operandEffects_looked {o : Operand} (ho : ∀ p ∈ o.place?.toList, f.locals.Looked p) :
    ReadsLooked f.locals (f.operandEffects types o) := by
  cases o with
  | copy p => exact readEffects_looked hf (ho p List.mem_cons_self) .use
  | move p => exact moveEffects_looked hf (ho p List.mem_cons_self)
  | ref p k => exact readEffects_looked hf (ho p List.mem_cons_self) .borrow
  | literal l => exact .nil

theorem valueEffects_looked {v : Value} (hv : ∀ p ∈ v.places, f.locals.Looked p) :
    ReadsLooked f.locals (f.valueEffects types v) := by
  rw [valueEffects_eq]
  refine .append (.flatMap fun p hp => ?_) (.flatMap fun o ho => operandEffects_looked hf fun p hp => ?_)
  · exact readEffects_looked hf (hv p (List.mem_append_left _ hp)) .use
  · refine hv p (List.mem_append_right _ (List.mem_filterMap.mpr ⟨o, ho, ?_⟩))
    exact Option.mem_toList.mp hp

theorem statementEffects_looked {s : Statement} (hs : ∀ p ∈ s.places, f.locals.Looked p) :
    ReadsLooked f.locals (f.statementEffects types s) := by
  cases s with
  | assign d v =>
    refine (valueEffects_looked hf fun p hp => hs p ?_).append
      (writeEffects_looked hf (hs d List.mem_cons_self))
    exact List.mem_append_left _ (List.mem_append_right _ hp)
  | borrow d p k =>
    exact (readEffects_looked hf (hs p (by simp [Statement.places, Statement.reads])) .borrow).append
      (writeEffects_looked hf (hs d List.mem_cons_self))
  | move d p =>
    exact (moveEffects_looked hf (hs p (by simp [Statement.places, Statement.reads]))).append
      (writeEffects_looked hf (hs d List.mem_cons_self))
  | drop p =>
    intro q b hmem
    rw [statementEffects] at hmem
    split_ifs at hmem
    · cases hmem
    · cases List.mem_singleton.mp hmem
  | eval v => exact valueEffects_looked hf fun p hp => hs p (List.mem_append_left _ hp)

theorem terminatorEffects_looked {t : Terminator} (ht : ∀ p ∈ t.places, f.locals.Looked p) :
    ReadsLooked f.locals (f.terminatorEffects types t) := by
  cases t with
  | goto n => exact .nil
  | branch c yes no => exact operandEffects_looked hf ht
  | ret =>
    rw [terminatorEffects]
    split_ifs
    · exact readEffects_looked hf hf.result.looked .use
    · exact .nil
  | unreachable => exact .nil

/-- What is read has the root that its name stands for. -/
theorem looked_of_read (hc : f.Closed) {p : Point} {place : Place} {action : Action}
    (h : .read place action ∈ f.effectsAt types p) : f.locals.Looked place := by
  have hplaces : ∀ q ∈ f.places, f.locals.Looked q := fun q hq => (hc q hq).root.looked
  unfold effectsAt at h
  split at h
  · rename_i s hs
    obtain ⟨hb, hmem⟩ := block_of_statementAt? hs
    refine statementEffects_looked hf (fun q hq => hplaces q ?_) place action h
    exact mem_places.mpr ⟨_, hb, Or.inl ⟨s, hmem, hq⟩⟩
  · rcases block_mem_or (f := f) p.block with hb | hb
    · refine terminatorEffects_looked hf (fun q hq => hplaces q ?_) place action h
      exact mem_places.mpr ⟨_, hb, Or.inr hq⟩
    · rw [hb] at h
      cases h

end Lists

/-! ## 4. Why something is missing -/

variable (f types)

/-- The effects of the points of one route in the order in which they take place. -/
def performed : List Point → List (Point × Effect)
  | [] => []
  | p :: ps => performed ps ++ (f.effectsAt types p).map (p, ·)

/-- Behind the points of one route and the effects `done`, a gone path overlaps the directly held part of
    the place. -/
def Lacks (ps : List Point) (done : List Effect) (place : Place) : Prop :=
  ∃ r ∈ ((Effect.applyAll (f.statesAlong types ps) done).stateOf place.name).gone,
    Path.overlaps r place.directPath = true

/-- Along one route to `p`, and when the effects `done` of `p` have taken place, `q` is a point that
    emptied what overlaps the directly held part of the place, and nothing has filled it since. -/
def TakenAt (ps : List Point) (p : Point) (done : List Effect) (place : Place) (q : Point) : Prop :=
  ∃ t, Effect.Took (f.performed types ps ++ done.map (p, ·)) q t ∧ t.overlaps place.carrier = true

/-- The root of the place has no value at the start, and gets none along the route. -/
def NeverSet (ps : List Point) (p : Point) (done : List Effect) (place : Place) : Prop :=
  f.entryStates.stateOf place.name = .moved ∧
    ∀ y ∈ f.performed types ps ++ done.map (p, ·), ¬ y.2.Restores place.name []

variable {f types}

theorem mem_performed {ps : List Point} {q : Point} {e : Effect} :
    (q, e) ∈ f.performed types ps ↔ q ∈ ps ∧ e ∈ f.effectsAt types q := by
  induction ps with
  | nil => simp [performed]
  | cons p ps ih =>
    simp only [performed, List.mem_append, ih, List.mem_map, Prod.mk.injEq, List.mem_cons, or_and_right]
    rw [or_comm]
    refine or_congr_left ⟨?_, ?_⟩
    · intro h
      obtain ⟨_, he, rfl, rfl⟩ := h
      exact ⟨rfl, he⟩
    · intro h
      obtain ⟨rfl, he⟩ := h
      exact ⟨e, he, rfl, rfl⟩

/-- The states behind a route and some effects of the next point. -/
theorem applyAll_statesAlong (ps : List Point) (p : Point) (done : List Effect) :
    Effect.applyAll (f.statesAlong types ps) done = Effect.applyAll f.entryStates
      ((f.performed types ps ++ done.map (p, ·)).map Prod.snd) := by
  have hsnd : ∀ (q : Point) (es : List Effect), (es.map (q, ·)).map Prod.snd = es := by
    intro q es
    rw [List.map_map]
    exact List.map_id _
  have hstates : f.statesAlong types ps =
      Effect.applyAll f.entryStates ((f.performed types ps).map Prod.snd) := by
    induction ps with
    | nil => rfl
    | cons q ps ih =>
      rw [statesAlong, ih, performed, List.map_append, hsnd]
      exact List.foldl_append.symm
  rw [hstates, List.map_append, hsnd]
  exact List.foldl_append.symm

theorem entryStates_eq_moved {x : String} {r : Path} (h : (f.entryStates.stateOf x).Outcome (some r)) :
    f.entryStates.stateOf x = .moved := by
  rw [MoveMap.stateOf_eq] at h ⊢
  cases hs : f.entryStates[x]? with
  | none => rfl
  | some s =>
    rw [hs] at h
    rcases mem_of_getElem?_rows Prod.fst _ hs with ⟨d, _, _, rfl⟩ | hs
    · change (if d.2.root.isExternal then MoveState.owned else .moved).Outcome (some r) at h
      show (if d.2.root.isExternal then MoveState.owned else .moved) = .moved
      split_ifs at h ⊢
      · exact absurd h (MoveState.not_under_owned r)
      · rfl
    · rw [ExtTreeMap.getElem?_empty] at hs
      cases hs

section Routes

variable {ps : List Point} {p q : Point} {done rest : List Effect} {place : Place} {action : Action}
  (hp : f.effectsAt types p = done ++ .read place action :: rest)

include hp

/-- What takes place along a route are effects of its points and of the point of the read. -/
theorem effect_of_performed {e : Effect} (h : (q, e) ∈ f.performed types ps ++ done.map (p, ·)) :
    (q ∈ ps ∨ q = p) ∧ e ∈ f.effectsAt types q := by
  rcases List.mem_append.mp h with h | h
  · obtain ⟨hq, he⟩ := mem_performed.mp h
    exact ⟨Or.inl hq, he⟩
  · obtain ⟨_, he, hpair⟩ := List.mem_map.mp h
    cases hpair
    exact ⟨Or.inr rfl, hp ▸ List.mem_append_left _ he⟩

/-- A taker is a point of the route, or the point of the read itself. -/
theorem TakenAt.exists_effect (h : f.TakenAt types ps p done place q) : (q ∈ ps ∨ q = p) ∧
    ∃ e ∈ f.effectsAt types q, ∃ t, e.emptied? = some t ∧ t.overlaps place.carrier = true := by
  obtain ⟨t, htook, hover⟩ := h
  obtain ⟨e, hmem, he⟩ := htook.mem
  obtain ⟨hq, hmem⟩ := effect_of_performed hp hmem
  exact ⟨hq, e, hmem, t, he, hover⟩

/-- **Why something is missing.** What a read misses was taken along the route and not put back, or was
    never there. -/
theorem lacks_iff (hf : f.WellFormed) (hc : f.Closed) : f.Lacks types ps done place ↔
    (∃ q, f.TakenAt types ps p done place q) ∨ f.NeverSet types ps p done place := by
  unfold Lacks
  rw [MoveState.gone_overlaps_iff, applyAll_statesAlong ps p]
  simp only [Effect.outcome_applyAll_iff]
  constructor
  · intro h
    obtain ⟨r, ⟨q, t, htook, hname, hpre⟩ | ⟨r', _, ho, hno⟩, hover⟩ := h
    · refine Or.inl ⟨q, t, htook, Bool.and_eq_true_iff.mpr ⟨beq_iff_eq.mpr ?_, ?_⟩⟩
      · -- the two names are the same, and each stands for one root
        have ht : t ∈ f.places := by
          obtain ⟨e, hmem, he⟩ := htook.mem
          refine (Effect.AllFrom.effectsAt f types q e (effect_of_performed hp hmem).2).changed ?_
          rcases Effect.emptied?_eq_some.mp he with rfl | rfl
          · rfl
          · rfl
        have htl : f.locals.Looked t := (hc t ht).root.looked
        have hpl : f.locals.Looked place :=
          looked_of_read hf hc (hp ▸ List.mem_append_right _ List.mem_cons_self)
        exact htl.trans ((congrArg f.locals.rootOf hname).trans hpl.symm)
      · exact MoveState.overlaps_of_shorter hpre hover
    · refine Or.inr ⟨entryStates_eq_moved ho, fun y hy hres => ?_⟩
      exact hno y hy (hres.mono List.nil_prefix)
  · intro h
    rcases h with ⟨q, t, htook, hover⟩ | ⟨hmoved, hno⟩
    · obtain ⟨hroot, hpath⟩ := Bool.and_eq_true_iff.mp hover
      have hname : t.name = place.name := congrArg Root.name (eq_of_beq hroot)
      exact ⟨t.path, Or.inl ⟨q, t, htook, hname, List.prefix_rfl⟩, hpath⟩
    · refine ⟨[], Or.inr ⟨[], List.prefix_rfl, ?_, hno⟩, rfl⟩
      rw [hmoved]
      exact MoveState.under_moved []

end Routes

end Function

end Ownership
