import Ownership.Proofs.Liveness.Exact
import Ownership.Proofs.Moves.Exact

/-!
# Live roots are there

A root that is used later on has to be there when it is used. The effects of a point read what the
point uses before they fill anything, and only filling the whole of it brings back a root that is
gone; so a live root that is gone is missed further on.

* `Effect.ReadsAll`, `Effect.ReadsFirst`: effects that read given names and fill nothing, or fill last;
* `Function.effectsAt_split`: the effects of a point read first and fill last;
* `Function.LiveAt.exists_misses`: a live root that is gone is missed;
* `stateOf_ne_moved_of_live`: with a good verdict no live root is gone.
-/

namespace Ownership

open Std (ExtTreeSet)

variable {f : Function} {types : TypeTable}

/-! ## 1. A root that is gone -/

/-- The effect fills the whole root. -/
def Effect.Fills (r : String) : Effect → Prop
  | .fill p => p.isWhole = true ∧ p.name = r
  | _ => False

/-- An update that leaves alone what is gone keeps a root gone. -/
theorem MoveMap.stateOf_update {m : MoveMap} {r : String} (h : m.stateOf r = .moved)
    {g : MoveState → MoveState} {n : String} (hg : r = n → g .moved = .moved) :
    MoveMap.stateOf (m.insert n (g (m.stateOf n))) r = .moved := by
  by_cases hn : r = n
  · subst hn
    rw [stateOf_insert_self, h]
    exact hg rfl
  · rw [stateOf_insert_ne _ _ hn]
    exact h

/-- Only filling the whole of it brings back a root that is gone. -/
theorem Effect.apply_moved {m : MoveMap} {e : Effect} {r : String} (h : m.stateOf r = .moved)
    (he : ¬ e.Fills r) : (e.apply m).stateOf r = .moved := by
  cases e with
  | read p a => exact h
  | take p => exact MoveMap.stateOf_update h fun _ => MoveState.afterMove_moved _
  | release p => exact MoveMap.stateOf_update h fun _ => MoveState.afterMove_moved _
  | fill p =>
    refine MoveMap.stateOf_update h fun hr => MoveState.afterAssign_moved fun hp => ?_
    exact he ⟨List.isEmpty_iff.mpr hp, hr.symm⟩

theorem Effect.applyAll_moved {m : MoveMap} {es : List Effect} {r : String}
    (h : m.stateOf r = .moved) (hes : ∀ e ∈ es, ¬ e.Fills r) :
    (Effect.applyAll m es).stateOf r = .moved := by
  induction es generalizing m with
  | nil => exact h
  | cons e es ih =>
    rw [Effect.applyAll_cons]
    exact ih (Effect.apply_moved h (hes e List.mem_cons_self))
      fun e' he' => hes e' (List.mem_cons_of_mem _ he')

/-! ## 2. ReadsAll come first -/

/-- The effects fill no root and read a place of every root named. -/
structure Effect.ReadsAll (es : List Effect) (names : List String) : Prop where
  quiet : ∀ e ∈ es, ∀ r, ¬ e.Fills r
  reads : ∀ r ∈ names, ∃ place action, .read place action ∈ es ∧ place.name = r

namespace Effect.ReadsAll

variable {es es' : List Effect} {xs ys : List String}

theorem nil : ReadsAll [] [] where
  quiet _ he := absurd he List.not_mem_nil
  reads _ hr := absurd hr List.not_mem_nil

theorem append (h : ReadsAll es xs) (h' : ReadsAll es' ys) : ReadsAll (es ++ es') (xs ++ ys) where
  quiet e he := (List.mem_append.mp he).elim (h.quiet e) (h'.quiet e)
  reads r hr := by
    rcases List.mem_append.mp hr with hr | hr
    · obtain ⟨place, action, hmem, hname⟩ := h.reads r hr
      exact ⟨place, action, List.mem_append_left _ hmem, hname⟩
    · obtain ⟨place, action, hmem, hname⟩ := h'.reads r hr
      exact ⟨place, action, List.mem_append_right _ hmem, hname⟩

theorem mono (h : ReadsAll es xs) (hsub : ys ⊆ xs) : ReadsAll es ys :=
  ⟨h.quiet, fun r hr => h.reads r (hsub hr)⟩

theorem single (p : Place) (a : Action) : ReadsAll [.read p a] [p.name] where
  quiet e he r := by
    rw [List.mem_singleton.mp he]
    exact id
  reads r hr := ⟨p, a, List.mem_singleton_self _, (List.mem_singleton.mp hr).symm⟩

theorem taken (h : ReadsAll es xs) (p : Place) : ReadsAll (es ++ [.take p]) xs where
  quiet e he r := by
    rcases List.mem_append.mp he with he | he
    · exact h.quiet e he r
    · rw [List.mem_singleton.mp he]
      exact id
  reads r hr := by
    obtain ⟨place, action, hmem, hname⟩ := h.reads r hr
    exact ⟨place, action, List.mem_append_left _ hmem, hname⟩

theorem flatMap {α : Type} {es : α → List Effect} {xs : α → List String}
    (h : ∀ a, ReadsAll (es a) (xs a)) (as : List α) : ReadsAll (as.flatMap es) (as.flatMap xs) := by
  induction as with
  | nil => exact nil
  | cons a as ih =>
    rw [List.flatMap_cons, List.flatMap_cons]
    exact (h a).append ih

end Effect.ReadsAll

/-- The effects read a place of every root named before they fill anything, and then fill nothing but
    the destination. -/
def Effect.ReadsFirst (es : List Effect) (names : List String) (dest : Option Place) : Prop :=
  ∃ early late, es = early ++ late ∧ ReadsAll early names ∧ ∀ d, .fill d ∈ late → dest = some d

theorem Effect.ReadsAll.readsFirst {es : List Effect} {names : List String} (h : ReadsAll es names)
    (dest : Option Place) : ReadsFirst es names dest :=
  ⟨es, [], (List.append_nil es).symm, h, fun _ hd => absurd hd List.not_mem_nil⟩

theorem Effect.ReadsFirst.prepend {es es' : List Effect} {xs ys : List String} {dest : Option Place}
    (h : ReadsFirst es' ys dest) (hes : ReadsAll es xs) : ReadsFirst (es ++ es') (xs ++ ys) dest := by
  obtain ⟨early, late, rfl, hreads, hlate⟩ := h
  exact ⟨es ++ early, late, (List.append_assoc _ _ _).symm, hes.append hreads, hlate⟩

/-- The whole destination of a statement is defined by it. -/
theorem Statement.mem_defs_of_dest {tracked : Names} {s : Statement} {d : Place}
    (hd : s.dest? = some d) (hwhole : d.isWhole = true) {r : String} (hr : d.name = r)
    (ht : r ∈ tracked) : r ∈ s.defs tracked := by
  have hends : r ∈ ((some d).toList.filter Place.isWhole).map Place.name :=
    List.mem_map.mpr ⟨d, List.mem_filter.mpr ⟨List.mem_singleton_self d, hwhole⟩, hr⟩
  refine mem_ofList_filter.mpr ⟨?_, ht⟩
  cases s with
  | assign d' v =>
    cases hd
    exact hends
  | borrow d' p k =>
    cases hd
    exact hends
  | move d' p =>
    cases hd
    exact hends
  | drop p => cases hd
  | eval v => cases hd

namespace Function

open Effect (ReadsAll ReadsFirst)

section Lists

variable (hf : f.WellFormed)

include hf

theorem indexReads_reads (p : Place) : ReadsAll (f.indexReads p) p.indexVars := by
  unfold indexReads
  refine ⟨fun e he r => ?_, fun r hr => ?_⟩
  · obtain ⟨v, _, rfl⟩ := List.mem_map.mp he
    exact id
  · exact ⟨f.rootOf r, .use, List.mem_map.mpr ⟨r, hr, rfl⟩, hf.rootOf_name r⟩

theorem readEffects_reads (p : Place) (a : Action) : ReadsAll (f.readEffects p a) p.uses := by
  refine ((indexReads_reads hf p).append (.single p a)).mono fun r hr => ?_
  rw [List.mem_append, List.mem_singleton]
  exact (List.mem_cons.mp hr).symm

theorem moveEffects_reads (p : Place) : ReadsAll (f.moveEffects types p) p.uses := by
  unfold moveEffects
  split
  · exact (readEffects_reads hf p .move).taken p
  · exact readEffects_reads hf p .use

theorem operandEffects_reads (o : Operand) :
    ReadsAll (f.operandEffects types o) (o.place?.toList.flatMap Place.uses) := by
  have hone : ∀ p : Place, (some p).toList.flatMap Place.uses = p.uses := fun p => List.append_nil _
  cases o with
  | copy p =>
    rw [Operand.place?, hone]
    exact readEffects_reads hf p .use
  | move p =>
    rw [Operand.place?, hone]
    exact moveEffects_reads hf p
  | ref p k =>
    rw [Operand.place?, hone]
    exact readEffects_reads hf p .borrow
  | literal v => exact .nil

theorem valueEffects_reads (v : Value) : ReadsAll (f.valueEffects types v)
    ((v.cloned?.toList ++ v.operands.filterMap Operand.place?).flatMap Place.uses) := by
  have hall : ReadsAll (v.operands.flatMap (f.operandEffects types)) _ :=
    ReadsAll.flatMap (operandEffects_reads hf) v.operands
  rw [← List.flatMap_assoc, ← List.filterMap_eq_flatMap_toList] at hall
  cases v with
  | clone p =>
    refine (readEffects_reads hf p .use).mono fun r hr => ?_
    obtain ⟨q, hq, hr⟩ := List.mem_flatMap.mp hr
    rw [List.mem_singleton.mp hq] at hr
    exact hr
  | const l => exact hall
  | alloc n => exact hall
  | use o => exact hall
  | call n args => exact hall
  | aggregate n fields => exact hall

/-- Writing a place reads what it needs, and then fills the place unless it lies behind a
    reference. -/
theorem writeEffects_readsFirst (d : Place) : ReadsFirst (f.writeEffects d) d.writeUses (some d) := by
  unfold writeEffects Place.writeUses
  split
  · refine ReadsAll.readsFirst ?_ _
    refine (indexReads_reads hf d).append ((readEffects_reads hf d.carrier .use).mono fun r hr => ?_)
    rw [List.mem_singleton.mp hr]
    exact List.mem_cons_self
  · refine ⟨_, _, rfl, ?_, fun e he => ?_⟩
    · rw [List.append_nil]
      exact indexReads_reads hf d
    · cases List.mem_singleton.mp he
      rfl

/-- The effects of a statement read what it uses, and then fill nothing but its destination. -/
theorem statementEffects_readsFirst (s : Statement) : ReadsFirst (f.statementEffects types s)
    (s.reads.flatMap Place.uses ++ s.dest?.toList.flatMap Place.writeUses) s.dest? := by
  have hone : ∀ p : Place, [p].flatMap Place.uses = p.uses := fun p => List.append_nil _
  have hdest : ∀ d : Place, (some d).toList.flatMap Place.writeUses = d.writeUses :=
    fun d => List.append_nil _
  cases s with
  | assign d v =>
    rw [Statement.dest?, hdest]
    exact (writeEffects_readsFirst hf d).prepend (valueEffects_reads hf v)
  | borrow d p k =>
    rw [Statement.dest?, hdest, Statement.reads, hone]
    exact (writeEffects_readsFirst hf d).prepend (readEffects_reads hf p .borrow)
  | move d p =>
    rw [Statement.dest?, hdest, Statement.reads, hone]
    exact (writeEffects_readsFirst hf d).prepend (moveEffects_reads hf p)
  | drop p =>
    refine ⟨[], if p.hasDeref then [] else [.release p], rfl, .nil, fun d hd => ?_⟩
    split at hd
    · cases hd
    · cases List.mem_singleton.mp hd
  | eval v =>
    have hreads : ReadsAll (f.valueEffects types v) _ := valueEffects_reads hf v
    rw [← List.append_nil (List.flatMap _ _)] at hreads
    exact hreads.readsFirst _

/-- The effects of a terminator fill nothing and read what it uses, except for a return place that no
    statement writes. -/
theorem terminatorEffects_reads (tracked : Names) (t : Terminator) :
    (∀ e ∈ f.terminatorEffects types t, ∀ r, ¬ e.Fills r) ∧
      ∀ r ∈ f.exitUses tracked t, (r = f.result.name → f.writesResult = true) →
        ∃ place action, .read place action ∈ f.terminatorEffects types t ∧ place.name = r := by
  cases t with
  | goto n =>
    refine ⟨ReadsAll.nil.quiet, fun r hr _ => ?_⟩
    exact absurd (mem_ofList_filter.mp hr).1 List.not_mem_nil
  | branch c y n =>
    have hreads : ReadsAll (f.operandEffects types c) _ := operandEffects_reads hf c
    exact ⟨hreads.quiet, fun r hr _ => hreads.reads r (mem_ofList_filter.mp hr).1⟩
  | ret =>
    have hreads := readEffects_reads hf f.result .use
    rw [terminatorEffects]
    refine ⟨?_, fun r hr hres => ?_⟩
    · split
      · exact hreads.quiet
      · exact ReadsAll.nil.quiet
    · have hname : r = f.result.name := List.mem_singleton.mp (mem_ofList_filter.mp hr).1
      rw [if_pos (hres hname)]
      exact hreads.reads r (hname ▸ List.mem_cons_self)
  | unreachable =>
    refine ⟨ReadsAll.nil.quiet, fun r hr _ => ?_⟩
    exact absurd (mem_ofList_filter.mp hr).1 List.not_mem_nil

/-- **The effects of a point read what it uses, and then fill nothing but what it defines.** -/
theorem effectsAt_split (types : TypeTable) (tracked : Names) (p : Point) : ∃ early late,
    f.effectsAt types p = early ++ late ∧ (∀ e ∈ early, ∀ r, ¬ e.Fills r) ∧
    (∀ r ∈ f.usesAt tracked p, (r = f.result.name → f.writesResult = true) →
      ∃ place action, .read place action ∈ early ∧ place.name = r) ∧
    ∀ e ∈ late, ∀ r ∈ tracked, e.Fills r → r ∈ f.defsAt tracked p := by
  unfold effectsAt usesAt defsAt
  cases f.statementAt? p with
  | some s =>
    obtain ⟨early, late, hsplit, hreads, hlate⟩ := statementEffects_readsFirst hf s
    refine ⟨early, late, hsplit, hreads.quiet, fun r hr _ => ?_, fun e he r ht hfill => ?_⟩
    · exact hreads.reads r (mem_ofList_filter.mp hr).1
    · cases e with
      | fill d => exact Statement.mem_defs_of_dest (hlate d he) hfill.1 hfill.2 ht
      | _ => exact hfill.elim
  | none =>
    obtain ⟨hquiet, hreads⟩ := terminatorEffects_reads hf tracked (f.block p.block).terminator
    exact ⟨_, [], (List.append_nil _).symm, hquiet, hreads, fun e he => absurd he List.not_mem_nil⟩

end Lists

/-! ## 3. What a live root needs -/

/-- **A live root that is gone is missed further on**, where it is used first. -/
theorem LiveAt.exists_misses (hf : f.WellFormed) {p : Point} {r : String}
    (h : f.LiveAt (f.tracked types) p r) (hres : r = f.result.name → f.writesResult = true)
    {ps : List Point} (hr : f.Route p ps) (hm : (f.statesAlong types ps).stateOf r = .moved) :
    ∃ q qs place action, f.Route q qs ∧ f.Misses types qs q place action := by
  induction h generalizing ps with
  | @use p r hu =>
    obtain ⟨early, late, hsplit, hquiet, hreads, _⟩ := effectsAt_split hf types (f.tracked types) p
    obtain ⟨place, action, hmem, hname⟩ := hreads r hu hres
    obtain ⟨done, rest, rfl⟩ := List.append_of_mem hmem
    have hgone : (Effect.applyAll (f.statesAlong types ps) done).stateOf place.name = .moved :=
      hname ▸ Effect.applyAll_moved hm fun e he => hquiet e (List.mem_append_left _ he) r
    refine ⟨p, ps, place, action, hr, done, rest ++ late, ?_, [], ?_, rfl⟩
    · rw [hsplit, List.append_assoc, List.cons_append]
    · rw [hgone]
      exact ExtTreeSet.mem_insert_self
  | @pass p q r hd hs hlive ih =>
    obtain ⟨early, late, hsplit, hquiet, _, hlate⟩ := effectsAt_split hf types (f.tracked types) p
    refine ih hres (hr.step hs) (Effect.applyAll_moved hm fun e he hfill => ?_)
    rw [hsplit] at he
    rcases List.mem_append.mp he with he | he
    · exact hquiet e he r hfill
    · exact hd (hlate e he r hlive.mem_tracked hfill)

end Function

/-- **With a good verdict no live root is gone**, unless it is a return place that no statement
    writes. -/
theorem stateOf_ne_moved_of_live (hf : f.WellFormed) {s : Settings}
    (hok : (f.check types s).ok = true) {p : Point} {ps : List Point} (hr : f.Route p ps) {r : String}
    (hlive : f.LiveAt (f.tracked types) p r) (hres : r = f.result.name → f.writesResult = true) :
    (f.statesAlong types ps).stateOf r ≠ .moved := by
  intro hm
  obtain ⟨q, qs, place, action, hq, hmiss⟩ := hlive.exists_misses hf hres hr hm
  exact not_misses_of_ok hf hok hq place action hmiss

end Ownership
