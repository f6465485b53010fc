import Ownership.Function.Sketch
import Ownership.Proofs.Conflict.Silence
import Ownership.Proofs.Moves.Exact
import Ownership.Proofs.Moves.Stops

/-!
# What a check writes out

A check writes out the places that its conflicts are about. All of them come from the body of the
function: what is read or accessed is a place of the body or leads to one, what is missing was taken
from a place of the body, and what is on loan was borrowed there. So if the numbers of the body can be
written out, so can every conflict.

* `Function.Writable`: the numbers in the places of the body can be written out;
* `Conflict.renders`: the places that a conflict is about can be written out;
* `Function.Writable.events`, `Function.Writable.conflicts`: those of a writable function can.
-/

namespace Ownership

open Std

/-! ## 1. Places -/

/-- The numbers in the places of the body can be written out. -/
def Function.Writable (f : Function) : Prop := ∀ p ∈ f.places, Path.prints p.path = true

theorem Path.prints_mono {p q : Path} (h : p <+: q) (hq : Path.prints q = true) :
    Path.prints p = true :=
  List.all_eq_true.mpr fun s hs => List.all_eq_true.mp hq s (h.subset hs)

/-- Where the full form can be written out, so can the text, which shows less. -/
theorem Place.renders_of_prints {p : Place} (h : Path.prints p.path = true) : p.renders = true := by
  refine List.all_eq_true.mpr fun s hs => ?_
  have hprints := List.all_eq_true.mp h s hs
  cases s with
  | field name => rfl
  | deref => rfl
  | index i =>
    obtain ⟨kind, value, var⟩ := i
    cases kind with
    | any => rfl
    | const => exact hprints

/-! ## 2. Conflicts that can be written out -/

/-- The places that an event names: the one that is read, and the part that is missing. -/
def MoveEvent.renders (e : MoveEvent) : Bool :=
  e.place.renders && (e.uninitialized || match e.state with
    | .partly _ => Place.renders ⟨e.place.root, e.missing⟩
    | _ => true)

/-- The places that a conflict is about can be written out. -/
def Conflict.renders : Conflict → Bool
  | .missing e => e.renders
  | .borrowed _ old new => old.place.renders && new.place.renders
  | .moved _ p l | .written _ p l | .read _ p l => p.renders && l.place.renders
  | .escaping _ _ l | .dropped _ l => l.place.renders

/-- What an access touches can be written out. -/
def Access.renders : Access → Bool
  | .read p | .move p | .write p => p.renders
  | .borrow _ l => l.place.renders

section Loans

variable {facts : LoanFacts} {pt : Point} (hloans : ∀ l ∈ facts.loans, l.place.renders = true)

include hloans

theorem renders_of_heldIn (roots : Names) : ∀ l ∈ facts.heldIn pt roots, l.place.renders = true := by
  intro l hl
  obtain ⟨i, _, hi⟩ := mem_select.mp (List.mem_filter.mp hl).1
  exact hloans l (List.mem_of_getElem? hi)

theorem accessConflicts_renders {here : List Loan} (hhere : ∀ l ∈ here, l.place.renders = true)
    {a : Access} (ha : a.renders = true) (seen : Pairs) :
    ∀ c ∈ (accessConflicts facts pt here seen a).1, c.renders = true := by
  have huse : ∀ l ∈ facts.activeBefore pt ++ here, l.place.renders = true := fun l hl =>
    (List.mem_append.mp hl).elim (renders_of_heldIn hloans _ l) (hhere l)
  intro c hc
  cases a with
  | read p =>
    obtain ⟨l, hl, rfl⟩ := List.mem_map.mp hc
    exact Bool.and_eq_true_iff.mpr ⟨ha, huse l (List.mem_filter.mp hl).1⟩
  | move p =>
    obtain ⟨l, hl, rfl⟩ := List.mem_map.mp hc
    exact Bool.and_eq_true_iff.mpr ⟨ha, huse l (List.mem_filter.mp hl).1⟩
  | borrow p new =>
    obtain ⟨old, hold, rfl, _⟩ := of_mem_borrowConflicts hc
    exact Bool.and_eq_true_iff.mpr ⟨huse old hold, ha⟩
  | write p =>
    obtain ⟨l, hl, rfl⟩ := List.mem_map.mp hc
    exact Bool.and_eq_true_iff.mpr ⟨ha, renders_of_heldIn hloans _ l (List.mem_filter.mp hl).1⟩

theorem accessesConflicts_renders {as : List Access} (has : ∀ a ∈ as, a.renders = true) :
    ∀ {here : List Loan}, (∀ l ∈ here, l.place.renders = true) → ∀ seen,
      ∀ c ∈ (accessesConflicts facts pt here as seen).1, c.renders = true := by
  induction as with
  | nil => exact fun _ _ c hc => nomatch hc
  | cons a as ih =>
    intro here hhere seen c hc
    rw [accessesConflicts_cons.1] at hc
    have ha := has a List.mem_cons_self
    rcases List.mem_append.mp hc with hc | hc
    · exact accessConflicts_renders hloans hhere ha seen c hc
    · refine ih (fun b hb => has b (List.mem_cons_of_mem _ hb)) (fun l hl => ?_) _ c hc
      rcases List.mem_append.mp hl with hl | hl
      · exact hhere l hl
      · cases a with
        | borrow p new => exact List.mem_singleton.mp hl ▸ ha
        | _ => cases hl

theorem pointsConflicts_renders {rows : List (Point × List Access)}
    (hrows : ∀ r ∈ rows, ∀ a ∈ r.2, a.renders = true) :
    ∀ seen, ∀ c ∈ (pointsConflicts facts rows seen).1, c.renders = true := by
  induction rows with
  | nil => exact fun _ c hc => nomatch hc
  | cons r rows ih =>
    intro seen c hc
    rw [pointsConflicts_cons.1] at hc
    rcases List.mem_append.mp hc with hc | hc
    · exact accessesConflicts_renders hloans (hrows r List.mem_cons_self) (List.forall_mem_nil _) seen c hc
    · exact ih (fun r' hr' => hrows r' (List.mem_cons_of_mem _ hr')) _ c hc

theorem exitConflicts_renders (fr : Frame) : ∀ c ∈ exitConflicts facts fr pt, c.renders = true := by
  intro c hc
  unfold exitConflicts at hc
  split at hc
  · obtain ⟨l, hl, rfl⟩ := List.mem_map.mp hc
    obtain ⟨i, _, hi⟩ := mem_select.mp (List.mem_filter.mp (List.mem_filter.mp hl).1).1
    exact hloans l (List.mem_of_getElem? hi)
  · obtain ⟨l, hl, rfl⟩ := List.mem_map.mp hc
    exact renders_of_heldIn hloans _ l (List.mem_filter.mp hl).1

end Loans

/-! ## 3. Writable functions -/

/-- What a read misses is gone. -/
theorem MoveState.mem_gone_of_missing? {s : MoveState} {p q : Path} (h : s.missing? p = some q) :
    q ∈ s.gone := by
  cases s with
  | owned => cases h
  | moved =>
    cases h
    exact ExtTreeSet.mem_insert_self
  | partly gone => exact ExtTreeSet.mem_toList.mp (List.mem_mergeSort.mp (List.mem_of_find?_eq_some h))

section Accesses

variable {f : Function} {types : TypeTable} {issued : List Loan}
  (hissued : ∀ l ∈ issued, l.place.renders = true)

theorem moveAccess_renders {p : Place} (hp : p.renders = true) : (f.moveAccess types p).renders = true := by
  unfold Function.moveAccess
  split_ifs <;> exact hp

include hissued

theorem operandAccesses_renders {ops : List Operand}
    (hops : ∀ p ∈ ops.filterMap Operand.place?, p.renders = true) :
    ∀ a ∈ f.operandAccesses types ops issued, a.renders = true := by
  induction ops generalizing issued with
  | nil => exact fun a ha => nomatch ha
  | cons o ops ih =>
    have hrest : ∀ p ∈ ops.filterMap Operand.place?, p.renders = true := fun p hp => hops p (by
      rw [List.filterMap_cons]
      split
      · exact hp
      · exact List.mem_cons_of_mem _ hp)
    intro a ha
    cases o with
    | literal v => exact ih hissued hrest a ha
    | copy p =>
      rcases List.mem_cons.mp ha with rfl | ha
      · exact hops p List.mem_cons_self
      · exact ih hissued hrest a ha
    | move p =>
      rcases List.mem_cons.mp ha with rfl | ha
      · exact moveAccess_renders (hops p List.mem_cons_self)
      · exact ih hissued hrest a ha
    | ref p k =>
      cases issued with
      | nil => exact ih hissued hrest a ha
      | cons l ls =>
        rcases List.mem_cons.mp ha with rfl | ha
        · exact hissued l List.mem_cons_self
        · exact ih (fun l' hl' => hissued l' (List.mem_cons_of_mem _ hl')) hrest a ha

theorem valueAccesses_renders {v : Value} (hv : ∀ p ∈ v.places, p.renders = true) :
    ∀ a ∈ f.valueAccesses types v issued, a.renders = true := by
  intro a ha
  rcases List.mem_append.mp ha with ha | ha
  · obtain ⟨p, hp, rfl⟩ := List.mem_map.mp ha
    exact hv p (List.mem_append_left _ hp)
  · exact operandAccesses_renders hissued (fun p hp => hv p (List.mem_append_right _ hp)) a ha

theorem accesses_renders {s : Statement} (hs : ∀ p ∈ s.places, p.renders = true) :
    ∀ a ∈ f.accesses types issued s, a.renders = true := by
  intro a ha
  cases s with
  | assign d v =>
    rcases List.mem_append.mp ha with ha | ha
    · exact valueAccesses_renders hissued (fun p hp => hs p (List.mem_append_left _
        (List.mem_cons_of_mem _ hp))) a ha
    · rw [List.mem_singleton.mp ha]
      exact hs d List.mem_cons_self
  | eval v =>
    exact valueAccesses_renders hissued (fun p hp => hs p (List.mem_append_left _ hp)) a ha
  | borrow d p k =>
    rcases List.mem_append.mp ha with ha | ha
    · obtain ⟨l, hl, rfl⟩ := List.mem_map.mp ha
      exact hissued l hl
    · rw [List.mem_singleton.mp ha]
      exact hs d List.mem_cons_self
  | move d p =>
    rcases List.mem_cons.mp ha with rfl | ha
    · exact moveAccess_renders (hs p (List.mem_cons_of_mem _ List.mem_cons_self))
    · rw [List.mem_singleton.mp ha]
      exact hs d List.mem_cons_self
  | drop p => cases ha

end Accesses

namespace Function

variable {f : Function} {types : TypeTable} {tracked : Names}

theorem mem_places_of_borrows {s : Statement} {row : Place × LoanKind × Option String}
    (h : row ∈ f.borrows types tracked s) : row.1 ∈ s.places := by
  have hops : ∀ {ops : List Operand} {p : Place × LoanKind}, p ∈ operandBorrows ops →
      p.1 ∈ ops.filterMap Operand.place? := by
    intro ops p hp
    obtain ⟨o, ho, hop⟩ := List.mem_filterMap.mp hp
    cases o with
    | ref q k =>
      cases hop
      exact List.mem_filterMap.mpr ⟨_, ho, rfl⟩
    | _ => cases hop
  cases s with
  | borrow d p k =>
    rw [List.mem_singleton.mp h]
    exact List.mem_cons_of_mem _ List.mem_cons_self
  | assign d v =>
    obtain ⟨p, hp, rfl⟩ := List.mem_map.mp h
    have hv : p.1 ∈ v.places := List.mem_append_right _ (hops hp)
    exact List.mem_append_left _ (List.mem_cons_of_mem _ hv)
  | eval v =>
    obtain ⟨p, hp, rfl⟩ := List.mem_map.mp h
    have hv : p.1 ∈ v.places := List.mem_append_right _ (hops hp)
    exact List.mem_append_left _ hv
  | move d p => cases h
  | drop p => cases h

/-- What is borrowed is a place of the body. -/
theorem mem_places_of_issued {l : Loan} (hl : l ∈ f.issueLoans types tracked f.graph) :
    l.place ∈ f.places := by
  obtain ⟨⟨⟨pt, row⟩, i⟩, hmade, rfl⟩ := List.mem_map.mp hl
  have hmade := List.mem_of_getElem? (List.mem_zipIdx_iff_getElem?.mp hmade)
  obtain ⟨b, _, hrow⟩ := List.mem_flatMap.mp hmade
  obtain ⟨⟨s, q⟩, hs, hrow⟩ := List.mem_flatMap.mp hrow
  obtain ⟨_, hborrow, hpair⟩ := List.mem_map.mp hrow
  cases hpair
  obtain ⟨hb, hmem⟩ := block_of_statementAt? (mem_statementsOf.mp hs).2
  exact mem_places.mpr ⟨_, hb, Or.inl ⟨s, hmem, mem_places_of_borrows hborrow⟩⟩

/-- A terminator reads a place that it mentions. -/
theorem exists_of_mem_exit {t : Terminator} {a : Access} (ha : a ∈ t.accesses) :
    ∃ p ∈ t.places, a = .read p := by
  cases t with
  | branch c y n =>
    obtain ⟨p, hp, rfl⟩ := List.mem_map.mp ha
    exact ⟨p, hp, rfl⟩
  | _ => cases ha

namespace Writable

variable (h : f.Writable)

include h

theorem renders {p : Place} (hp : p ∈ f.places) : p.renders = true := Place.renders_of_prints (h p hp)

theorem loans (hf : f.WellFormed) (types : TypeTable) (cap : Nat) :
    ∀ l ∈ (f.analyse types cap).loans.loans, l.place.renders = true := by
  intro l hl
  obtain ⟨o, ho, hplace, _⟩ := (analyse_table hf types cap).rooted l hl
  exact hplace ▸ h.renders (mem_places_of_issued (List.mem_of_getElem? ho))

/-- The paths that may be gone can be written out. -/
theorem gonePaths {q : Path} (hq : q ∈ f.gonePaths) : Path.prints q = true := by
  rcases List.mem_cons.mp hq with rfl | hq
  · rfl
  · obtain ⟨p, hp, rfl⟩ := List.mem_map.mp hq
    exact h p hp

variable (hwhole : f.result.path = [])

include hwhole

/-- What an effect reads can be written out. -/
theorem read {p : Place} {a : Action} (hread : (Effect.read p a).From f f.places) :
    Path.prints p.path = true := by
  obtain ⟨q, hq, hpath⟩ := hread
  refine Path.prints_mono hpath ?_
  rcases List.mem_cons.mp hq with rfl | hq
  · rw [hwhole]
    rfl
  · exact h q hq

theorem events (hc : f.Closed) (types : TypeTable) (cap : Nat) :
    ∀ ev ∈ (f.trackMoves f.graph types cap).events, ev.renders = true := by
  intro ev hev
  rw [trackMoves_events] at hev
  obtain ⟨⟨p, m, es⟩, hrow, hev⟩ := List.mem_flatMap.mp hev
  obtain ⟨⟨m', e⟩, htrace, hev⟩ := List.mem_filterMap.mp hev
  obtain ⟨done, rest, rfl, rfl⟩ := mem_trace.mp htrace
  obtain ⟨b, _, hrow⟩ := List.mem_flatMap.mp hrow
  obtain ⟨m₀, hm₀, _, rfl, hes⟩ := mem_moveRowsOf.mp hrow
  have hfrom : Effect.AllFrom f f.places (done ++ e :: rest) := hes ▸ .effectsAt f types p
  have hbounded : (Effect.applyAll (f.statesThrough types b p.stmt m₀) done).Bounded f :=
    (((lastMoves_bounded hc types cap).ins b m₀ hm₀).statesThrough hc b _).applyAll hc
      fun e' he' => hfrom e' (List.mem_append_left _ he')
  cases e with
  | read q a =>
    obtain ⟨path, hpath, rfl⟩ := Option.map_eq_some_iff.mp hev
    have hread := h.read hwhole (hfrom _ (List.mem_append_right _ List.mem_cons_self))
    refine Bool.and_eq_true_iff.mpr ⟨Place.renders_of_prints hread, Bool.or_eq_true_iff.mpr (Or.inr ?_)⟩
    have hmissing : Place.renders ⟨q.root, path⟩ = true := Place.renders_of_prints
      (h.gonePaths (hbounded.gone q.name path (MoveState.mem_gone_of_missing? hpath)))
    dsimp only
    split
    · exact hmissing
    · rfl
  | take q => cases hev
  | release q => cases hev
  | fill q => cases hev

/-- **Every conflict of a writable function can be written out.** -/
theorem conflicts (hf : f.WellFormed) (hc : f.Closed) (types : TypeTable) (cap : Nat) :
    ∀ c ∈ (f.analyse types cap).conflicts, c.renders = true := by
  have hloans := h.loans hf types cap
  intro c hmem
  rcases List.mem_append.mp hmem with hmem | hmem
  · rcases List.mem_append.mp hmem with hmem | hmem
    · obtain ⟨ev, hev, rfl⟩ := List.mem_map.mp hmem
      exact h.events hwhole hc types cap ev hev
    · refine pointsConflicts_renders hloans (fun r hr a ha => ?_) [] c hmem
      obtain ⟨b, _, hr⟩ := List.mem_flatMap.mp hr
      rcases List.mem_append.mp hr with hr | hr
      · obtain ⟨⟨s, q⟩, hs, rfl⟩ := List.mem_map.mp hr
        obtain ⟨hb, hstmt⟩ := block_of_statementAt? (mem_statementsOf.mp hs).2
        refine accesses_renders (fun l hl => hloans l (List.mem_filter.mp hl).1) (fun p hp => ?_) a ha
        exact h.renders (mem_places.mpr ⟨_, hb, Or.inl ⟨s, hstmt, hp⟩⟩)
      · rw [List.mem_singleton.mp hr] at ha
        obtain ⟨p, hp, rfl⟩ := exists_of_mem_exit ha
        refine h.renders ?_
        rcases block_mem_or (f := f) b with hb | hb
        · exact mem_places.mpr ⟨_, hb, Or.inr hp⟩
        · rw [hb] at hp
          cases hp
  · obtain ⟨fr, _, hmem⟩ := List.mem_flatMap.mp hmem
    obtain ⟨pt, _, hmem⟩ := List.mem_flatMap.mp hmem
    exact exitConflicts_renders hloans fr c hmem

end Writable

end Function

end Ownership
