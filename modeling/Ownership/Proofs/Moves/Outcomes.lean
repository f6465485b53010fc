import Ownership.Moves.Facts
import Ownership.Proofs.Flow.Coincidence
import Ownership.Proofs.Moves.Lattice

/-!
# What effects do to outcomes

The states of all roots together are read as one set of outcomes, each with the root it is about. A
join of maps is the union of their outcomes, and a list of effects is an additive rule on them:

* `MoveMap.outcomes`, `MoveMap.outcomes_join`;
* `Effect.exists_rule`, `Effect.exists_rule_all`: one effect, and a list of them;
* `Function.effectsAt`, `Function.statesAlong`: the effects of one point, and the states along a route;
* `MoveMap.ListedNormal`: the maps that occur, every declared root being listed.
-/

namespace Ownership

open Std (ExtTreeMap LawfulEqOrd)

/-! ## 1. Maps -/

namespace MoveMap

/-- What may have become of the roots. -/
def outcomes (m : MoveMap) : Set (String × Option Path) := {x | (m.stateOf x.1).Outcome x.2}

theorem stateOf_eq (m : MoveMap) (x : String) : m.stateOf x = m[x]?.getD .moved :=
  ExtTreeMap.getD_eq_getD_getElem?

theorem stateOf_insert_self (m : MoveMap) (n : String) (s : MoveState) :
    stateOf (m.insert n s) n = s := by
  rw [stateOf_eq, ExtTreeMap.getElem?_insert_self]
  rfl

theorem stateOf_insert_ne (m : MoveMap) {n x : String} (s : MoveState) (h : x ≠ n) :
    stateOf (m.insert n s) x = m.stateOf x := by
  rw [stateOf_eq, stateOf_eq, getElem?_insert_ne h]

/-- A map that gets values which depend on the key alone. -/
theorem getElem?_foldl_insert (v : String → MoveState) (ks : List String) (m : MoveMap) (x : String) :
    (ks.foldl (fun m k => m.insert k (v k)) m)[x]? = if x ∈ ks then some (v x) else m[x]? := by
  induction ks generalizing m with
  | nil => rfl
  | cons k ks ih =>
    rw [List.foldl_cons, ih]
    by_cases hx : x ∈ ks
    · rw [if_pos hx, if_pos (List.mem_cons_of_mem _ hx)]
    · by_cases hk : x = k
      · subst hk
        rw [if_neg hx, if_pos List.mem_cons_self, ExtTreeMap.getElem?_insert_self]
      · rw [if_neg hx, if_neg (List.not_mem_cons_of_ne_of_not_mem hk hx), getElem?_insert_ne hk]

theorem getElem?_join (a b : MoveMap) (x : String) :
    (a.join b)[x]? = if x ∈ a ∨ x ∈ b then some ((a.stateOf x).join (b.stateOf x)) else none := by
  rw [join, getElem?_foldl_insert]
  simp only [List.mem_append, ExtTreeMap.mem_keys, ExtTreeMap.getElem?_empty]

theorem stateOf_of_not_mem {m : MoveMap} {x : String} (h : x ∉ m) : m.stateOf x = .moved := by
  rw [stateOf_eq, ExtTreeMap.getElem?_eq_none h]
  rfl

theorem stateOf_join (a b : MoveMap) (x : String) :
    (a.join b).stateOf x = (a.stateOf x).join (b.stateOf x) := by
  rw [stateOf_eq (a.join b), getElem?_join]
  split_ifs with h
  · rfl
  · obtain ⟨ha, hb⟩ := not_or.mp h
    rw [stateOf_of_not_mem ha, stateOf_of_not_mem hb]
    rfl

theorem outcomes_join (a b : MoveMap) : (a.join b).outcomes = a.outcomes ∪ b.outcomes := by
  ext x
  show (stateOf _ x.1).Outcome x.2 ↔ _
  rw [stateOf_join, MoveState.outcome_join]
  exact Iff.rfl

/-- The outcomes of a map joined from several. -/
theorem mem_outcomes_foldl_join (ms : List MoveMap) (m : MoveMap) {x : String × Option Path} :
    x ∈ (ms.foldl join m).outcomes ↔ ∃ m' ∈ m :: ms, x ∈ m'.outcomes := by
  induction ms generalizing m with
  | nil => simp
  | cons n ms ih =>
    rw [List.foldl_cons, ih]
    simp only [List.mem_cons, exists_eq_or_imp, outcomes_join, Set.mem_union, or_assoc]

end MoveMap

/-! ## 2. Effects -/

/-- A change of a state that acts on its outcomes one by one. -/
def MoveState.Pointwise (g : MoveState → MoveState) : Prop :=
  ∃ (gen : Option Path → Prop) (take : Option Path → Option Path → Prop),
    ∀ s o, (g s).Outcome o ↔ gen o ∨ ∃ o', s.Outcome o' ∧ take o' o

theorem MoveState.afterMove_pointwise (p : Path) : Pointwise (afterMove p) := by
  by_cases hp : p = []
  · subst hp
    refine ⟨fun o => o ≠ none, fun _ _ => False, fun s o => ?_⟩
    rw [outcome_afterMove_nil]
    simp
  · refine ⟨fun o => ∃ r, o = some r ∧ p <+: r, fun o' o => o' = o, fun s o => ?_⟩
    rw [outcome_afterMove hp, or_comm]
    simp

theorem MoveState.afterAssign_pointwise (p : Path) : Pointwise (afterAssign p) := by
  by_cases hp : p = []
  · subst hp
    refine ⟨fun o => o = none, fun _ _ => False, fun s o => ?_⟩
    rw [outcome_afterAssign_nil]
    simp
  · refine ⟨fun _ => False, fun o' o => (o = none ∧ o' = none) ∨
      ∃ r r', o = some r ∧ o' = some r' ∧ ¬ p <+: r' ∧ r' <+: r, fun s o => ?_⟩
    rw [outcome_afterAssign hp, false_or]
    constructor
    · intro hx
      rcases hx with ⟨rfl, h⟩ | ⟨r, r', rfl, h, hr⟩
      · exact ⟨none, h, Or.inl ⟨rfl, rfl⟩⟩
      · exact ⟨some r', h, Or.inr ⟨r, r', rfl, rfl, hr⟩⟩
    · intro hx
      obtain ⟨o', h, ⟨rfl, rfl⟩ | ⟨r, r', rfl, rfl, hr⟩⟩ := hx
      · exact Or.inl ⟨rfl, h⟩
      · exact Or.inr ⟨r, r', rfl, h, hr⟩

/-- A change of the maps that is an additive rule on their outcomes. -/
def MoveMap.HasRule (g : MoveMap → MoveMap) : Prop :=
  ∃ r, Additive r ∧ ∀ m, (g m).outcomes = r m.outcomes

theorem MoveMap.hasRule_update {g : MoveState → MoveState} (hg : MoveState.Pointwise g) (n : String) :
    HasRule fun m => m.insert n (g (m.stateOf n)) := by
  obtain ⟨gen, take, h⟩ := hg
  refine ⟨_, Additive.of_gen (fun x => x.1 = n ∧ gen x.2)
    (fun y x => if x.1 = n then y.1 = n ∧ take y.2 x.2 else y = x), fun m => ?_⟩
  ext ⟨x, o⟩
  show (stateOf _ x).Outcome o ↔ (x = n ∧ gen o) ∨ ∃ y ∈ m.outcomes, _
  by_cases hx : x = n
  · subst hx
    rw [stateOf_insert_self, h]
    simp only [true_and, if_true]
    refine or_congr_right ⟨?_, ?_⟩
    · intro hex
      obtain ⟨o', ho, ht⟩ := hex
      exact ⟨(x, o'), ho, rfl, ht⟩
    · intro hex
      obtain ⟨⟨_, o'⟩, ho, rfl, ht⟩ := hex
      exact ⟨o', ho, ht⟩
  · rw [stateOf_insert_ne _ _ hx]
    simp only [hx, false_and, false_or, if_false, exists_eq_right]
    exact Iff.rfl

namespace Effect

theorem exists_rule (e : Effect) : MoveMap.HasRule e.apply := by
  cases e with
  | read p a => exact ⟨_, Additive.id, fun m => rfl⟩
  | take p => exact MoveMap.hasRule_update (MoveState.afterMove_pointwise p.path) p.name
  | release p => exact MoveMap.hasRule_update (MoveState.afterMove_pointwise p.path) p.name
  | fill p => exact MoveMap.hasRule_update (MoveState.afterAssign_pointwise p.path) p.name

theorem applyAll_cons (m : MoveMap) (e : Effect) (es : List Effect) :
    applyAll m (e :: es) = applyAll (e.apply m) es := rfl

theorem exists_rule_all (es : List Effect) : MoveMap.HasRule fun m => applyAll m es := by
  induction es with
  | nil => exact ⟨_, Additive.id, fun m => rfl⟩
  | cons e es ih =>
    obtain ⟨r, hr, h⟩ := e.exists_rule
    obtain ⟨rs, hrs, hs⟩ := ih
    refine ⟨_, hrs.comp hr, fun m => ?_⟩
    rw [← h]
    exact hs _

end Effect

/-! ## 3. Points -/

namespace Function

variable (f : Function) (types : TypeTable)

/-- The effects of one point: those of its statement, or of the terminator. -/
def effectsAt (p : Point) : List Effect :=
  match f.statementAt? p with
  | some s => f.statementEffects types s
  | none => f.terminatorEffects types (f.block p.block).terminator

/-- The states that the effects of the points of one route lead to, from those at the entry. -/
def statesAlong : List Point → MoveMap
  | [] => f.entryStates
  | p :: ps => Effect.applyAll (statesAlong ps) (f.effectsAt types p)

variable {f types}

theorem blockEffects_eq (b : Nat) :
    f.blockEffects types b = (f.pointsOf b).map fun p => (p, f.effectsAt types p) := by
  rw [blockEffects, pointsOf, Graph.points, List.range_succ, List.map_append, List.map_append]
  congr 1
  · rw [statementsOf, List.map_map, List.map_map]
    refine List.ext_getElem ?_ fun i h _ => ?_
    · simp
    · simp only [List.length_map, List.length_zipIdx] at h
      simp [effectsAt, statementAt?, h]
  · simp [effectsAt, statementAt?, exitOf]

end Function

/-! ## 4. The maps that occur -/

/-- Every declared root is listed, and every state is one that occurs. -/
structure MoveMap.ListedNormal (f : Function) (m : MoveMap) : Prop where
  listed : ∀ x ∈ f.locals.names, x ∈ m
  normal : ∀ x, (m.stateOf x).Normal

namespace MoveMap.ListedNormal

variable {f : Function} {m : MoveMap}

theorem insert (h : m.ListedNormal f) (n : String) {s : MoveState} (hs : s.Normal) :
    MoveMap.ListedNormal f (m.insert n s) := by
  refine ⟨fun x hx => ExtTreeMap.mem_insert.mpr (Or.inr (h.listed x hx)), fun x => ?_⟩
  by_cases hx : x = n
  · rw [hx, stateOf_insert_self]
    exact hs
  · rw [stateOf_insert_ne _ _ hx]
    exact h.normal x

theorem join (h : m.ListedNormal f) (m' : MoveMap) : (m.join m').ListedNormal f := by
  refine ⟨fun x hx => ?_, fun x => ?_⟩
  · rw [ExtTreeMap.mem_iff_isSome_getElem?, getElem?_join, if_pos (Or.inl (h.listed x hx))]
    rfl
  · rw [stateOf_join]
    exact (h.normal x).join

theorem apply (h : m.ListedNormal f) (e : Effect) : (e.apply m).ListedNormal f := by
  cases e with
  | read p a => exact h
  | take p => exact h.insert _ (MoveState.Normal.afterMove _)
  | release p => exact h.insert _ (MoveState.Normal.afterMove _)
  | fill p => exact h.insert _ ((h.normal _).afterAssign _)

theorem applyAll (h : m.ListedNormal f) (es : List Effect) : (Effect.applyAll m es).ListedNormal f := by
  induction es generalizing m with
  | nil => exact h
  | cons e es ih => exact ih (h.apply e)

theorem entry (f : Function) : f.entryStates.ListedNormal f := by
  refine ⟨fun x hx => (mem_rows Prod.fst _).mpr (Or.inl hx), fun x => ?_⟩
  rw [stateOf_eq]
  cases h : f.entryStates[x]? with
  | none => trivial
  | some s =>
    rcases mem_of_getElem?_rows Prod.fst _ h with ⟨⟨n, d⟩, _, _, rfl⟩ | h
    · show MoveState.Normal (if d.root.isExternal then .owned else .moved)
      split_ifs <;> trivial
    · rw [ExtTreeMap.getElem?_empty] at h
      cases h

end MoveMap.ListedNormal

end Ownership
