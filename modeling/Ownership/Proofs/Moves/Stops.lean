import Ownership.Proofs.Validated
import Ownership.Proofs.Flow.Termination
import Ownership.Proofs.Moves.Pass

/-!
# The ownership pass stops by itself

Outcomes range over all paths, but a map of states is told from finitely many of them: it lists the
declared roots and no other, and its gone paths are paths of places in the body.

* `MoveState.eq_of_outcomes`: a state is told from its outcomes at the paths it may have gone;
* `MoveMap.Bounded`: the maps that occur in a function whose places are covered;
* `trackMoves_stops`: with enough visits the pass converges.
-/

namespace Ownership

open Std (ExtTreeMap ExtTreeSet)

variable {f : Function} {types : TypeTable}

/-! ## 1. States told from finitely many outcomes -/

namespace MoveState

/-- **A state is told from its outcomes at the paths it may have gone.** -/
theorem eq_of_outcomes {U : Set Path} {s t : MoveState} (hs : s.Normal) (ht : t.Normal)
    (hsU : ∀ q ∈ s.gone, q ∈ U) (htU : ∀ q ∈ t.gone, q ∈ U)
    (hnone : s.Outcome none ↔ t.Outcome none)
    (hsome : ∀ r ∈ U, s.Outcome (some r) ↔ t.Outcome (some r)) : s = t := by
  have hgone : ∀ {u : MoveState} {q : Path}, q ∈ u.gone → u.Outcome (some q) :=
    fun hq => ⟨_, hq, List.prefix_rfl⟩
  have howned : ∀ r, ¬ MoveState.owned.Outcome (some r) := not_under_owned
  cases s with
  | moved => exact (not_not.mp (hnone.not.mp fun h => h rfl)).symm
  | owned =>
    cases t with
    | owned => rfl
    | moved => exact absurd rfl (hnone.mp fun h => nomatch h)
    | partly g =>
      obtain ⟨q, hq⟩ := ht.1
      exact absurd ((hsome q (htU q hq)).mpr (hgone hq)) (howned q)
  | partly g =>
    cases t with
    | owned =>
      obtain ⟨q, hq⟩ := hs.1
      exact absurd ((hsome q (hsU q hq)).mp (hgone hq)) (howned q)
    | moved => exact absurd rfl (hnone.mp fun h => nomatch h)
    | partly g' =>
      -- a gone path of either has one of the other above it, which has one of the first above it
      have hsub : ∀ {a b : PathSet}, (MoveState.partly a).Normal → (∀ q ∈ a, q ∈ U) → (∀ q ∈ b, q ∈ U) →
          (∀ r ∈ U, Under a r ↔ Under b r) → ∀ q ∈ a, q ∈ b := by
        intro a b ha haU hbU hab q hq
        obtain ⟨q', hq', hpre⟩ := (hab q (haU q hq)).mp ⟨q, hq, List.prefix_rfl⟩
        obtain ⟨q'', hq'', hpre'⟩ := (hab q' (hbU q' hq')).mpr ⟨q', hq', List.prefix_rfl⟩
        have he : q'' = q := ha.2 q hq q'' hq'' (hpre'.trans hpre)
        rw [he] at hpre'
        exact hpre.eq_of_length_le hpre'.length_le ▸ hq'
      refine congrArg MoveState.partly (ExtTreeSet.ext_mem fun q => ⟨?_, ?_⟩)
      · exact hsub hs hsU htU hsome q
      · exact hsub ht htU hsU (fun r hr => (hsome r hr).symm) q

end MoveState

/-! ## 2. Where effects act -/

/-- The place whose state an effect changes. -/
def Effect.changed? : Effect → Option Place
  | .read _ _ => none
  | .take p | .release p | .fill p => some p

/-- The effect comes from one of the places: it changes the place, or it reads it or a part of its
    way. The return place may be read as well. -/
def Effect.From (f : Function) (ps : List Place) : Effect → Prop
  | .read p _ => ∃ q ∈ f.result :: ps, p.path <+: q.path
  | .take p | .release p | .fill p => p ∈ ps

theorem Effect.From.changed {f : Function} {ps : List Place} {e : Effect} (h : e.From f ps) {p : Place}
    (hp : e.changed? = some p) : p ∈ ps := by
  cases e with
  | read q a => cases hp
  | take q =>
    cases hp
    exact h
  | release q =>
    cases hp
    exact h
  | fill q =>
    cases hp
    exact h

/-- Every effect of the list comes from one of the places. -/
def Effect.AllFrom (f : Function) (ps : List Place) (es : List Effect) : Prop := ∀ e ∈ es, e.From f ps

namespace Effect.AllFrom

variable {f : Function} {ps qs : List Place} {es es' : List Effect}

theorem nil : AllFrom f ps [] := fun _ he => nomatch he

theorem append (h : AllFrom f ps es) (h' : AllFrom f ps es') : AllFrom f ps (es ++ es') := by
  intro e he
  rcases List.mem_append.mp he with he | he
  · exact h e he
  · exact h' e he

theorem mono (h : AllFrom f ps es) (hsub : ps ⊆ qs) : AllFrom f qs es := by
  intro e he
  have hfrom := h e he
  cases e with
  | read p a =>
    obtain ⟨q, hq, hpath⟩ := hfrom
    exact ⟨q, List.cons_subset_cons _ hsub hq, hpath⟩
  | take p => exact hsub hfrom
  | release p => exact hsub hfrom
  | fill p => exact hsub hfrom

theorem single {e : Effect} (h : e.From f ps) : AllFrom f ps [e] :=
  fun _ he => List.mem_singleton.mp he ▸ h

theorem indexReads (f : Function) (p : Place) : AllFrom f ps (f.indexReads p) := by
  intro e he
  obtain ⟨v, _, rfl⟩ := List.mem_map.mp he
  exact ⟨f.result, List.mem_cons_self, List.nil_prefix⟩

theorem readEffects {p q : Place} (hq : q ∈ f.result :: ps) (hpath : p.path <+: q.path) (a : Action) :
    AllFrom f ps (f.readEffects p a) :=
  (indexReads f p).append (single ⟨q, hq, hpath⟩)

theorem moveEffects (f : Function) (types : TypeTable) (p : Place) :
    AllFrom f [p] (f.moveEffects types p) := by
  have hread : ∀ a, AllFrom f [p] (f.readEffects p a) :=
    readEffects (List.mem_cons_of_mem _ List.mem_cons_self) List.prefix_rfl
  unfold Function.moveEffects
  split_ifs
  · exact (hread _).append (single (List.mem_singleton_self p))
  · exact hread _

theorem writeEffects (f : Function) (p : Place) : AllFrom f [p] (f.writeEffects p) := by
  refine (indexReads f p).append ?_
  split_ifs
  · have hpath : p.carrier.path <+: p.path := List.takeWhile_prefix _
    exact readEffects (List.mem_cons_of_mem _ List.mem_cons_self) hpath _
  · exact single (List.mem_singleton_self p)

theorem operandEffects (f : Function) (types : TypeTable) (o : Operand) :
    AllFrom f o.place?.toList (f.operandEffects types o) := by
  cases o with
  | copy p => exact readEffects (List.mem_cons_of_mem _ List.mem_cons_self) List.prefix_rfl _
  | move p => exact moveEffects f types p
  | ref p k => exact readEffects (List.mem_cons_of_mem _ List.mem_cons_self) List.prefix_rfl _
  | literal v => exact nil

theorem valueEffects (f : Function) (types : TypeTable) (v : Value) :
    AllFrom f v.places (f.valueEffects types v) := by
  have hall : ∀ os : List Operand,
      AllFrom f (os.filterMap Operand.place?) (os.flatMap (f.operandEffects types)) := by
    intro os e he
    obtain ⟨o, ho, he⟩ := List.mem_flatMap.mp he
    exact (operandEffects f types o).mono (fun p hp => List.mem_filterMap.mpr
      ⟨o, ho, Option.mem_toList.mp hp⟩) e he
  cases v with
  | clone p => exact readEffects (List.mem_cons_of_mem _ List.mem_cons_self) List.prefix_rfl _
  | const l => exact nil
  | alloc t => exact nil
  | use o => exact hall [o]
  | call g args => exact hall args
  | aggregate t fields => exact hall (fields.map Prod.snd)

theorem statementEffects (f : Function) (types : TypeTable) (s : Statement) :
    AllFrom f s.places (f.statementEffects types s) := by
  cases s with
  | assign d v =>
    refine ((valueEffects f types v).mono fun p hp => ?_).append ((writeEffects f d).mono fun p hp => ?_)
    · exact List.mem_append_left _ (List.mem_cons_of_mem _ hp)
    · exact List.mem_append_left _ (List.mem_append_left _ hp)
  | borrow d p k =>
    refine (readEffects (q := p) ?_ List.prefix_rfl _).append ((writeEffects f d).mono fun q hq => ?_)
    · exact List.mem_cons_of_mem _ (List.mem_cons_of_mem _ List.mem_cons_self)
    · exact List.mem_append_left _ (List.mem_append_left _ hq)
  | move d p =>
    refine ((moveEffects f types p).mono fun q hq => ?_).append ((writeEffects f d).mono fun q hq => ?_)
    · exact List.mem_cons_of_mem _ hq
    · exact List.mem_append_left _ (List.mem_append_left _ hq)
  | drop p =>
    show AllFrom f _ (if p.hasDeref then [] else [.release p])
    split_ifs
    · exact nil
    · exact single List.mem_cons_self
  | eval v =>
    exact (valueEffects f types v).mono fun p hp => List.mem_append_left _ hp

theorem terminatorEffects (f : Function) (types : TypeTable) (t : Terminator) :
    AllFrom f t.places (f.terminatorEffects types t) := by
  cases t with
  | goto b => exact nil
  | branch c y n => exact operandEffects f types c
  | ret =>
    show AllFrom f _ (if f.writesResult then _ else [])
    split_ifs
    · exact readEffects List.mem_cons_self List.prefix_rfl _
    · exact nil
  | unreachable => exact nil

/-- Effects come from places of the body. -/
theorem effectsAt (f : Function) (types : TypeTable) (p : Point) :
    AllFrom f f.places (f.effectsAt types p) := by
  unfold Function.effectsAt
  split
  · rename_i s hs
    obtain ⟨hb, hmem⟩ := Function.block_of_statementAt? hs
    exact (statementEffects f types s).mono fun q hq =>
      Function.mem_places.mpr ⟨_, hb, Or.inl ⟨s, hmem, hq⟩⟩
  · rcases Function.block_mem_or (f := f) p.block with hb | hb
    · exact (terminatorEffects f types _).mono fun q hq => Function.mem_places.mpr ⟨_, hb, Or.inr hq⟩
    · rw [hb]
      exact nil

end Effect.AllFrom

/-! ## 3. The maps that occur -/

/-- The paths that may be gone: that of a whole root, and those of the places in the body. -/
def Function.gonePaths (f : Function) : List Path := [] :: f.places.map Place.path

/-- Only declared roots are listed, and only paths of the body are gone. -/
structure MoveMap.Bounded (f : Function) (m : MoveMap) : Prop where
  declared : ∀ x, x ∈ m → x ∈ f.locals.names
  gone : ∀ x, ∀ q ∈ (m.stateOf x).gone, q ∈ f.gonePaths

theorem Locals.Covers.mem_names {ls : Locals} {p : Place} (h : ls.Covers p) : p.name ∈ ls.names := by
  obtain ⟨d, hd, _⟩ := h.root
  obtain ⟨_, _, hmem, _⟩ := List.lookup_eq_some_iff.mp hd
  exact List.mem_map.mpr ⟨(p.name, d), hmem ▸ List.mem_append_right _ List.mem_cons_self, rfl⟩

namespace MoveState

variable {U : Set Path}

theorem gone_join {a b : MoveState} (ha : ∀ q ∈ a.gone, q ∈ U) (hb : ∀ q ∈ b.gone, q ∈ U) :
    ∀ q ∈ (a.join b).gone, q ∈ U := by
  intro q hq
  by_cases hab : a = b
  · rw [join, if_pos hab] at hq
    exact ha q hq
  rw [join_of_ne hab] at hq
  split_ifs at hq
  · exact absurd hq ExtTreeSet.not_mem_empty
  · rcases ExtTreeSet.mem_union_iff.mp (mem_minimize.mp hq).1 with hq | hq
    · exact ha q hq
    · exact hb q hq

theorem gone_moved (hnil : [] ∈ U) : ∀ q ∈ MoveState.moved.gone, q ∈ U := by
  intro q hq
  rcases ExtTreeSet.mem_insert.mp hq with he | hq
  · exact Std.LawfulEqOrd.eq_of_compare he ▸ hnil
  · exact absurd hq ExtTreeSet.not_mem_empty

theorem gone_afterMove (hnil : [] ∈ U) {s : MoveState} (hs : ∀ q ∈ s.gone, q ∈ U) {p : Path}
    (hp : p ∈ U) : ∀ q ∈ (s.afterMove p).gone, q ∈ U := by
  intro q hq
  by_cases he : p = []
  · subst he
    exact gone_moved hnil q hq
  by_cases hm : s = .moved
  · rw [hm, afterMove_moved] at hq
    exact gone_moved hnil q hq
  rw [afterMove_of_ne he hm] at hq
  rcases ExtTreeSet.mem_insert.mp (mem_minimize.mp hq).1 with he | hq
  · exact Std.LawfulEqOrd.eq_of_compare he ▸ hp
  · exact hs q (mem_clear.mp hq).1

theorem gone_afterAssign {s : MoveState} (hs : ∀ q ∈ s.gone, q ∈ U) (p : Path) :
    ∀ q ∈ (s.afterAssign p).gone, q ∈ U := by
  intro q hq
  by_cases he : p = []
  · subst he
    exact absurd hq ExtTreeSet.not_mem_empty
  cases s with
  | owned =>
    rw [afterAssign_owned] at hq
    exact hs q hq
  | moved =>
    rw [afterAssign_moved he] at hq
    exact hs q hq
  | partly g =>
    rw [afterAssign_partly he] at hq
    split_ifs at hq
    · exact absurd hq ExtTreeSet.not_mem_empty
    · exact hs q (mem_clear.mp hq).1

end MoveState

namespace MoveMap.Bounded

variable {m m' : MoveMap}

theorem insert (h : m.Bounded f) {n : String} (hn : n ∈ f.locals.names) {s : MoveState}
    (hs : ∀ q ∈ s.gone, q ∈ f.gonePaths) : MoveMap.Bounded f (m.insert n s) := by
  refine ⟨fun x hx => ?_, fun x => ?_⟩
  · rcases ExtTreeMap.mem_insert.mp hx with he | hx
    · exact Std.LawfulEqOrd.eq_of_compare he ▸ hn
    · exact h.declared x hx
  · by_cases hx : x = n
    · rw [hx, stateOf_insert_self]
      exact hs
    · rw [stateOf_insert_ne _ _ hx]
      exact h.gone x

theorem join (h : m.Bounded f) (h' : m'.Bounded f) : (m.join m').Bounded f := by
  refine ⟨fun x hx => ?_, fun x => ?_⟩
  · rw [ExtTreeMap.mem_iff_isSome_getElem?, getElem?_join] at hx
    split_ifs at hx with hor
    · exact hor.elim (h.declared x) (h'.declared x)
    · cases hx
  · rw [stateOf_join]
    exact MoveState.gone_join (U := {q | q ∈ f.gonePaths}) (h.gone x) (h'.gone x)

theorem apply (hc : f.Closed) (h : m.Bounded f) {e : Effect} (he : e.From f f.places) :
    (e.apply m).Bounded f := by
  have hnil : [] ∈ {q | q ∈ f.gonePaths} := List.mem_cons_self
  have hpath : ∀ p ∈ f.places, p.path ∈ {q | q ∈ f.gonePaths} :=
    fun p hp => List.mem_cons_of_mem _ (List.mem_map_of_mem hp)
  cases e with
  | read p a => exact h
  | take p =>
    have hp := he.changed rfl
    exact h.insert (hc p hp).mem_names (MoveState.gone_afterMove hnil (h.gone _) (hpath p hp))
  | release p =>
    have hp := he.changed rfl
    exact h.insert (hc p hp).mem_names (MoveState.gone_afterMove hnil (h.gone _) (hpath p hp))
  | fill p =>
    exact h.insert (hc p (he.changed rfl)).mem_names
      (MoveState.gone_afterAssign (U := {q | q ∈ f.gonePaths}) (h.gone _) _)

theorem applyAll (hc : f.Closed) (h : m.Bounded f) {es : List Effect}
    (hes : Effect.AllFrom f f.places es) : (Effect.applyAll m es).Bounded f := by
  induction es generalizing m with
  | nil => exact h
  | cons e es ih =>
    exact ih (h.apply hc (hes e List.mem_cons_self)) fun e' he' => hes e' (List.mem_cons_of_mem _ he')

theorem entry (f : Function) : f.entryStates.Bounded f := by
  refine ⟨fun x hx => ?_, fun x => ?_⟩
  · rcases (mem_rows Prod.fst _).mp hx with hx | hx
    · exact hx
    · exact absurd hx ExtTreeMap.not_mem_empty
  · have hnil : [] ∈ {q | q ∈ f.gonePaths} := List.mem_cons_self
    rw [stateOf_eq]
    cases h : f.entryStates[x]? with
    | none => exact MoveState.gone_moved hnil
    | some s =>
      rcases mem_of_getElem?_rows Prod.fst _ h with ⟨d, _, _, rfl⟩ | h
      · show ∀ q ∈ (if d.2.root.isExternal then MoveState.owned else .moved).gone, q ∈ f.gonePaths
        split_ifs
        · exact fun q hq => absurd hq ExtTreeSet.not_mem_empty
        · exact MoveState.gone_moved hnil
      · rw [ExtTreeMap.getElem?_empty] at h
        cases h

theorem statesThrough (hc : f.Closed) (h : m.Bounded f) (b n : Nat) :
    (f.statesThrough types b n m).Bounded f := by
  induction n with
  | zero => exact h
  | succ n ih => exact ih.applyAll hc (.effectsAt f types _)

end MoveMap.Bounded

/-- The roots and outcomes that tell the maps apart. -/
def Function.moveProbes (f : Function) : Finset (String × Option Path) :=
  (f.locals.names.flatMap fun x => (none :: f.gonePaths.map some).map fun o => (x, o)).toFinset

theorem mem_moveProbes {x : String} (hx : x ∈ f.locals.names) {o : Option Path}
    (ho : ∀ q, o = some q → q ∈ f.gonePaths) : (x, o) ∈ f.moveProbes := by
  refine List.mem_toFinset.mpr (List.mem_flatMap.mpr ⟨x, hx, List.mem_map.mpr ⟨o, ?_, rfl⟩⟩)
  cases o with
  | none => exact List.mem_cons_self
  | some q => exact List.mem_cons_of_mem _ (List.mem_map_of_mem (ho q rfl))

/-- **The maps that occur are told apart by finitely many outcomes.** -/
theorem MoveMap.eq_of_probes {m m' : MoveMap} (hm : m.ListedNormal f) (hm' : m'.ListedNormal f)
    (hb : m.Bounded f) (hb' : m'.Bounded f)
    (h : ∀ y ∈ f.moveProbes, y ∈ m.outcomes ↔ y ∈ m'.outcomes) : m = m' := by
  refine ExtTreeMap.ext_getElem? fun x => ?_
  have hlisted : ∀ {a : MoveMap}, a.ListedNormal f → x ∈ f.locals.names → a[x]? = some (a.stateOf x) := by
    intro a ha hx
    obtain ⟨s, hs⟩ := Option.isSome_iff_exists.mp (ExtTreeMap.mem_iff_isSome_getElem?.mp (ha.listed x hx))
    rw [stateOf_eq, hs]
    rfl
  have hnot : ∀ {a : MoveMap}, a.Bounded f → x ∉ f.locals.names → a[x]? = none :=
    fun ha hx => ExtTreeMap.getElem?_eq_none fun hmem => hx (ha.declared x hmem)
  by_cases hx : x ∈ f.locals.names
  · rw [hlisted hm hx, hlisted hm' hx]
    refine congrArg some (MoveState.eq_of_outcomes (U := {q | q ∈ f.gonePaths}) (hm.normal x)
      (hm'.normal x) (hb.gone x) (hb'.gone x) ?_ fun r hr => ?_)
    · exact h (x, none) (mem_moveProbes hx fun q hq => nomatch hq)
    · exact h (x, some r) (mem_moveProbes hx fun q hq => Option.some.inj hq ▸ hr)
  · rw [hnot hb hx, hnot hb' hx]

/-! ## 4. The pass -/

/-- The maps before and behind blocks are bounded. -/
structure MoveStates.Bounded (f : Function) (s : MoveStates) : Prop where
  ins : ∀ b m, s.ins.get? b = some m → m.Bounded f
  outs : ∀ b m, s.outs.get? b = some m → m.Bounded f

namespace Function

theorem incoming_bounded {s : MoveStates} (hs : s.Bounded f) (b : Nat) :
    (f.incoming f.graph s.outs b).Bounded f := by
  have hknown : ∀ m ∈ f.knownMaps s.outs b, m.Bounded f := by
    intro m hm
    rcases mem_knownMaps.mp hm with ⟨_, rfl⟩ | ⟨p, _, hp⟩
    · exact .entry f
    · exact hs.outs p m hp
  by_cases hk : ∃ m, m ∈ f.knownMaps s.outs b
  · obtain ⟨m, ms, hms, he⟩ := exists_incoming hk
    rw [hms] at hknown
    rw [he]
    have hfold : ∀ (ms : List MoveMap) (m : MoveMap), m.Bounded f → (∀ n ∈ ms, n.Bounded f) →
        (ms.foldl MoveMap.join m).Bounded f := by
      intro ms
      induction ms with
      | nil => exact fun m hm _ => hm
      | cons n ms ih =>
        exact fun m hm hall => ih _ (hm.join (hall n List.mem_cons_self))
          fun k hk => hall k (List.mem_cons_of_mem _ hk)
    exact hfold ms m (hknown m List.mem_cons_self) fun n hn => hknown n (List.mem_cons_of_mem _ hn)
  · have hnil : f.knownMaps s.outs b = [] := List.eq_nil_iff_forall_not_mem.mpr fun m hm => hk ⟨m, hm⟩
    unfold knownMaps at hnil
    rw [incoming, hnil]
    exact .entry f

theorem outgoing_bounded (hc : f.Closed) {s : MoveStates} (hs : s.Bounded f) (b : Nat) :
    (f.outgoing types b (f.incoming f.graph s.outs b)).Bounded f := by
  rw [outgoing_eq]
  exact (incoming_bounded hs b).statesThrough hc b _

theorem visitMoves_bounded (hc : f.Closed) {s : MoveStates} (hs : s.Bounded f) (b : Nat) :
    (f.visitMoves f.graph types b s).1.Bounded f := by
  refine ⟨fun c m hm => ?_, fun c m hm => ?_⟩
  · rw [visitMoves_ins] at hm
    by_cases hcb : c = b
    · subst hcb
      cases hm.symm.trans ExtTreeMap.getElem?_insert_self
      exact incoming_bounded hs c
    · exact hs.ins c m ((getElem?_insert_ne hcb).symm.trans hm)
  · rw [visitMoves_outs] at hm
    split_ifs at hm
    · cases hm
      exact outgoing_bounded hc hs b
    · exact hs.outs c m hm

theorem firstMoves_bounded (f : Function) : f.firstMoves.Bounded f := by
  refine ⟨fun b m hm => ?_, fun b m hm => nomatch hm.symm.trans ExtTreeMap.getElem?_empty⟩
  by_cases hb : b = 0
  · subst hb
    cases hm.symm.trans ExtTreeMap.getElem?_insert_self
    exact .entry f
  · cases hm.symm.trans ((getElem?_insert_ne hb).trans ExtTreeMap.getElem?_empty)

/-- Whatever the number of visits, the maps stay bounded. -/
theorem lastMoves_bounded (hc : f.Closed) (types : TypeTable) (cap : Nat) :
    (f.lastMoves types cap).Bounded f := by
  obtain ⟨_, hlast, _⟩ := Worklist.run_invariant (fun _ s => MoveStates.Bounded f s)
    (fun b _ s hs => visitMoves_bounded hc hs b) cap [0] f.firstMoves 0 f.firstMoves_bounded
  exact hlast

/-- A visit that finds nothing new wakes nothing. -/
theorem visitMoves_quiet {b : Nat} {s : MoveStates}
    (h : s.outs.get? b = some (f.outgoing types b (f.incoming f.graph s.outs b))) :
    (f.visitMoves f.graph types b s).2 = [] :=
  congrArg Prod.snd (if_pos h)

end Function

/-- **With enough visits the ownership pass converges.** -/
theorem trackMoves_stops (hf : f.WellFormed) (hc : f.Closed) (types : TypeTable) :
    ∃ N, ∀ cap, N ≤ cap → (f.trackMoves f.graph types cap).converged = true := by
  obtain ⟨rule, hrule⟩ := exists_moveRule f types
  have hnone : ∀ b, f.firstMoves.outsOutcomes b = none :=
    fun b => congrArg (Option.map MoveMap.outcomes) ExtTreeMap.getElem?_empty
  have hpass := (movesPass hrule).strengthen (MoveStates.Bounded f)
    fun s b _ hs _ _ => Function.visitMoves_bounded hc hs b
  refine hpass.exists_cap hf ((startInvariant hf).strengthen f.firstMoves_bounded) hnone f.moveProbes
    (fun s b hs hb hk A hA hsub => ?_) 0
  obtain ⟨m, hm, rfl⟩ := Option.map_eq_some_iff.mp hA
  have hafter : (f.outgoing types b (f.incoming f.graph s.outs b)).outcomes =
      f.throughBlock rule b (f.joined f.entryStates.outcomes s.outsOutcomes b) := by
    have hbehind := hpass.behind s b hs hb hk
    rw [MoveStates.outsOutcomes, Function.visitMoves_outs, if_pos rfl] at hbehind
    exact Option.some.inj hbehind
  rw [← hafter] at hsub ⊢
  by_cases hsame : m = f.outgoing types b (f.incoming f.graph s.outs b)
  · exact Or.inl (Function.visitMoves_quiet (hsame ▸ hm))
  · -- maps that differ are told apart by an outcome that is new
    refine Or.inr (by_contra fun hno => hsame ?_)
    refine MoveMap.eq_of_probes (hs.1.outs b m hm) ?_ (hs.2.outs b m hm)
      (Function.outgoing_bounded hc hs.2 b) fun y hy => ⟨fun h => hsub h, fun h => ?_⟩
    · rw [Function.outgoing_eq]
      exact Function.statesThrough_listedNormal (Function.incoming_listedNormal hs.1 hk) _
    · exact by_contra fun hnot => hno ⟨y, hy, h, hnot⟩

end Ownership
