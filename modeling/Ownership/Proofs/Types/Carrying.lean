import Mathlib.Data.List.Sigma
import Ownership.Function.Basic
import Ownership.Types.Carrying
import Ownership.Proofs.Collections
import Ownership.Proofs.Types.Calls

/-!
# What the search for references finds

The search keeps a list of types to open and the types that were opened. Structs may be built on
each other in a circle, so that it only ends because no type is opened twice; its fuel has to cover
every number written down in the table.

* `TypeTable.Carries`: a type carries references if a chain of parts leads to one;
* `TypeTable.carriesRef_iff`: the search finds exactly these types;
* `TypeTable.carries_of_path`: if a part of a value carries references, so does the value.
-/

namespace Ownership

open Std (ExtTreeSet)

/-! ## 1. Chains of parts -/

/-- A chain of registered parts leads from the type to a reference. -/
inductive TypeTable.Carries (t : TypeTable) : TypeId → Prop
  | ref {i : TypeId} {d : TypeDef} {unique : Bool} {target : TypeId} (hd : t.def? i = some d)
      (hs : d.shape = .ref unique target) : t.Carries i
  | part {i j : TypeId} {d : TypeDef} (hd : t.def? i = some d) (hj : j ∈ d.shape.inner)
      (hc : t.Carries j) : t.Carries i

namespace TypeTable

variable {t : TypeTable} {fuel : Nat} {waiting : List TypeId} {seen : ExtTreeSet TypeId}

/-! ## 2. What is found -/

/-- What the search does with the next type: it was opened before or is not registered; it is a
    reference; or its parts are next. -/
theorem findRef_cons (i : TypeId) (h : t.findRef (fuel + 1) (i :: waiting) seen = b) :
    ((i ∈ seen ∨ t.def? i = none) ∧ t.findRef fuel waiting seen = b) ∨
    (i ∉ seen ∧ ∃ d, t.def? i = some d ∧
      ((∃ u j, d.shape = .ref u j ∧ b = true) ∨
        ((∀ u j, d.shape ≠ .ref u j) ∧
          t.findRef fuel (d.shape.inner ++ waiting) (seen.insert i) = b))) := by
  rw [findRef] at h
  split at h
  · rename_i hseen
    exact .inl ⟨.inl (ExtTreeSet.mem_iff_contains.mpr hseen), h⟩
  · rename_i hseen
    split at h
    · rename_i hd
      exact .inl ⟨.inr hd, h⟩
    · rename_i d hd
      refine .inr ⟨fun hm => hseen (ExtTreeSet.mem_iff_contains.mp hm), d, hd, ?_⟩
      split at h
      · rename_i u j hs
        exact .inl ⟨u, j, hs, h.symm⟩
      · rename_i hs
        exact .inr ⟨hs, h⟩

/-- What is found is there. -/
theorem carries_of_findRef (h : t.findRef fuel waiting seen = true) :
    ∃ i ∈ waiting, t.Carries i := by
  induction fuel generalizing waiting seen with
  | zero => cases h
  | succ fuel ih =>
    cases waiting with
    | nil => cases h
    | cons i waiting =>
      rcases findRef_cons i h with ⟨_, h⟩ | ⟨_, d, hd, ⟨u, j, hs, _⟩ | ⟨_, h⟩⟩
      · obtain ⟨j, hj, hc⟩ := ih h
        exact ⟨j, List.mem_cons_of_mem _ hj, hc⟩
      · exact ⟨i, List.mem_cons_self, .ref hd hs⟩
      · obtain ⟨j, hj, hc⟩ := ih h
        rcases List.mem_append.mp hj with hj | hj
        · exact ⟨i, List.mem_cons_self, .part hd hj hc⟩
        · exact ⟨j, List.mem_cons_of_mem _ hj, hc⟩

/-! ## 3. What is not found -/

/-- The definitions that were not opened, with their places in the table. -/
def unopened (t : TypeTable) (seen : ExtTreeSet TypeId) : List (TypeDef × Nat) :=
  t.defs.zipIdx.filter fun x => !seen.contains ((x.2 + 1 : Nat) : Int)

/-- The types that a search has still to take off its list. -/
def openings (t : TypeTable) (waiting : List TypeId) (seen : ExtTreeSet TypeId) : Nat :=
  waiting.length + ((t.unopened seen).flatMap fun x => x.1.shape.inner).length

theorem nodup_unopened : (t.unopened seen).Nodup :=
  (List.Nodup.of_map _ (List.nodup_zipIdx_map_snd t.defs)).filter _

theorem mem_unopened {d : TypeDef} {n : Nat} :
    (d, n) ∈ t.unopened seen ↔ t.defs[n]? = some d ∧ ((n + 1 : Nat) : Int) ∉ seen := by
  rw [unopened, List.mem_filter, List.mem_zipIdx_iff_getElem?, ExtTreeSet.mem_iff_contains,
    Bool.not_eq_true, Bool.not_eq_true']

theorem unopened_insert {d : TypeDef} {n : Nat} (h : (d, n) ∈ t.unopened seen) :
    (t.unopened (seen.insert ((n + 1 : Nat) : Int))).Perm ((t.unopened seen).erase (d, n)) := by
  refine (List.perm_ext_iff_of_nodup nodup_unopened (nodup_unopened.erase _)).mpr ?_
  rintro ⟨e, m⟩
  rw [nodup_unopened.mem_erase_iff, mem_unopened, mem_unopened, mem_insert_iff, not_or]
  have hne : t.defs[m]? = some e → (((m + 1 : Nat) : Int) ≠ ((n + 1 : Nat) : Int) ↔ (e, m) ≠ (d, n)) := by
    intro he
    constructor
    · rintro hmn ⟨⟩
      exact hmn rfl
    · intro hem hmn
      have hmn : m = n := by omega
      subst hmn
      cases he.symm.trans (mem_unopened.mp h).1
      exact hem rfl
  constructor
  · rintro ⟨he, hmn, hm⟩
    exact ⟨(hne he).mp hmn, he, hm⟩
  · rintro ⟨hem, he, hm⟩
    exact ⟨he, (hne he).mpr hem, hm⟩

/-- A type that is opened is replaced by its parts, which were not counted before. -/
theorem openings_insert {i : TypeId} {d : TypeDef} (hi : i ∉ seen) (hd : t.def? i = some d) :
    t.openings (d.shape.inner ++ waiting) (seen.insert i) + 1 = t.openings (i :: waiting) seen := by
  obtain ⟨n, rfl, hn⟩ := def?_eq_some.mp hd
  have hmem : (d, n) ∈ t.unopened seen := mem_unopened.mpr ⟨hn, hi⟩
  have hperm : (t.unopened seen).Perm ((d, n) :: t.unopened (seen.insert ((n + 1 : Nat) : Int))) :=
    (List.perm_cons_erase hmem).trans ((unopened_insert hmem).symm.cons _)
  have hlen := (hperm.flatMap_right fun x => x.1.shape.inner).length_eq
  simp only [List.flatMap_cons, List.length_append] at hlen
  simp only [openings, List.length_append, List.length_cons]
  omega

/-- What was opened is no reference, and its parts are opened, waiting or not registered. -/
def Opened (t : TypeTable) (waiting : List TypeId) (seen : ExtTreeSet TypeId) : Prop :=
  ∀ i ∈ seen, ∃ d, t.def? i = some d ∧ (∀ u j, d.shape ≠ .ref u j) ∧
    ∀ j ∈ d.shape.inner, j ∈ seen ∨ j ∈ waiting ∨ t.def? j = none

/-- When nothing waits, no chain leads out of the opened types. -/
theorem Opened.not_carries (h : t.Opened [] seen) {i : TypeId} (hi : i ∈ seen ∨ t.def? i = none) :
    ¬ t.Carries i := by
  intro hc
  induction hc with
  | ref hd hs =>
    rcases hi with hi | hi
    · obtain ⟨d', hd', hne, _⟩ := h _ hi
      cases hd.symm.trans hd'
      exact hne _ _ hs
    · cases hd.symm.trans hi
  | part hd hj _ ih =>
    rcases hi with hi | hi
    · obtain ⟨d', hd', _, hparts⟩ := h _ hi
      cases hd.symm.trans hd'
      rcases hparts _ hj with hj | hj | hj
      · exact ih (.inl hj)
      · cases hj
      · exact ih (.inr hj)
    · cases hd.symm.trans hi

/-- **Nothing is missed**: with fuel for all openings, a search that finds nothing has looked at all
    that there is. -/
theorem not_carries_of_findRef (hfuel : t.openings waiting seen ≤ fuel) (ho : t.Opened waiting seen)
    (h : t.findRef fuel waiting seen = false) {i : TypeId}
    (hi : i ∈ waiting ∨ i ∈ seen ∨ t.def? i = none) : ¬ t.Carries i := by
  induction fuel generalizing waiting seen with
  | zero =>
    cases waiting with
    | nil => exact ho.not_carries (hi.resolve_left List.not_mem_nil)
    | cons j waiting =>
      rw [openings, List.length_cons] at hfuel
      omega
  | succ fuel ih =>
    cases waiting with
    | nil => exact ho.not_carries (hi.resolve_left List.not_mem_nil)
    | cons j waiting =>
      rcases findRef_cons j h with ⟨hj, h⟩ | ⟨hj, d, hd, ⟨u, k, hs, hb⟩ | ⟨hs, h⟩⟩
      · -- the type was opened or has no parts: it is taken off the list
        refine ih (by rw [openings, List.length_cons] at hfuel; rw [openings]; omega) ?_ h ?_
        · intro k hk
          obtain ⟨d, hd, hne, hparts⟩ := ho k hk
          refine ⟨d, hd, hne, fun l hl => ?_⟩
          rcases hparts l hl with hl | hl | hl
          · exact .inl hl
          · rcases List.mem_cons.mp hl with rfl | hl
            · exact hj.imp_right .inr
            · exact .inr (.inl hl)
          · exact .inr (.inr hl)
        · rcases hi with hi | hi
          · rcases List.mem_cons.mp hi with rfl | hi
            · exact .inr hj
            · exact .inl hi
          · exact .inr hi
      · cases hb
      · -- the type is opened: its parts wait
        have hmem : ∀ {k : TypeId}, k ∈ j :: waiting ∨ k ∈ seen ∨ t.def? k = none →
            k ∈ d.shape.inner ++ waiting ∨ k ∈ seen.insert j ∨ t.def? k = none := by
          rintro k (hk | hk | hk)
          · rcases List.mem_cons.mp hk with rfl | hk
            · exact .inr (.inl (mem_insert_iff.mpr (.inl rfl)))
            · exact .inl (List.mem_append_right _ hk)
          · exact .inr (.inl (mem_insert_iff.mpr (.inr hk)))
          · exact .inr (.inr hk)
        have hone : t.openings (d.shape.inner ++ waiting) (seen.insert j) + 1 =
            t.openings (j :: waiting) seen := openings_insert hj hd
        refine ih (by omega) ?_ h (hmem hi)
        intro k hk
        rcases mem_insert_iff.mp hk with rfl | hk
        · exact ⟨d, hd, hs, fun l hl => .inr (.inl (List.mem_append_left _ hl))⟩
        · obtain ⟨e, he, hne, hparts⟩ := ho k hk
          exact ⟨e, he, hne, fun l hl => or_left_comm.mp (hmem (or_left_comm.mp (hparts l hl)))⟩

/-- A search from one type may have to open every number written down in the table. -/
theorem openings_start (t : TypeTable) (i : TypeId) : t.openings [i] ∅ = t.partCount + 1 := by
  have hall : t.unopened ∅ = t.defs.zipIdx := List.filter_eq_self.mpr fun x _ => by
    rw [ExtTreeSet.contains_empty, Bool.not_false]
  have hparts : (t.defs.zipIdx.flatMap fun x => x.1.shape.inner) =
      t.defs.flatMap fun d => d.shape.inner := by
    conv_rhs => rw [← List.zipIdx_map_fst 0 t.defs, List.flatMap_map]
  rw [openings, partCount, hall, hparts, List.length_singleton, Nat.add_comm]

/-- A search from one type that finds nothing, with fuel to spare or not, means that there is nothing. -/
theorem not_carries_of_findRef_start {i : TypeId} (hfuel : t.partCount + 1 ≤ fuel)
    (h : t.findRef fuel [i] ∅ = false) : ¬ t.Carries i := by
  have hnone : t.Opened [i] ∅ := fun j hj => absurd hj ExtTreeSet.not_mem_empty
  exact not_carries_of_findRef (t.openings_start i ▸ hfuel) hnone h (.inl List.mem_cons_self)

/-- **The search finds the types that carry references, and no others.** -/
theorem carriesRef_iff {i : TypeId} : t.carriesRef (some i) = true ↔ t.Carries i := by
  constructor
  · intro h
    obtain ⟨j, hj, hc⟩ := carries_of_findRef h
    cases List.mem_singleton.mp hj
    exact hc
  · intro hc
    by_contra h
    exact not_carries_of_findRef_start (Nat.le_refl _) (eq_false_of_ne_true h) hc

/-! ## 4. Parts of a value -/

theorem def?_of_shape? {type : Option TypeId} {s : Shape} (h : t.shape? type = some s) :
    ∃ i d, type = some i ∧ t.def? i = some d ∧ d.shape = s := by
  obtain ⟨d, hd, hs⟩ := Option.map_eq_some_iff.mp h
  obtain ⟨i, hi, hd⟩ := Option.bind_eq_some_iff.mp hd
  exact ⟨i, d, hi, hd, hs⟩

/-- A part that carries references makes the whole carry them, and so does what a reference points
    to. -/
theorem carries_of_stepType {type : Option TypeId} {e : Projection} {j : TypeId}
    (h : t.stepType type e = some j) (hj : t.Carries j) : ∃ i, type = some i ∧ t.Carries i := by
  cases e with
  | field n =>
    change t.fieldType type n = some j at h
    unfold fieldType at h
    split at h
    · rename_i fields copy hs
      obtain ⟨i, d, hi, hd, hs⟩ := def?_of_shape? hs
      have hfield : (n, some j) ∈ fields := by
        obtain ⟨before, after, rfl, _⟩ := List.lookup_eq_some_iff.mp (Option.join_eq_some_iff.mp h)
        exact List.mem_append_right _ List.mem_cons_self
      refine ⟨i, hi, .part hd ?_ hj⟩
      rw [hs]
      exact List.mem_filterMap.mpr ⟨some j, List.mem_map_of_mem hfield, rfl⟩
    · cases h
  | index x =>
    change t.elementType type = some j at h
    unfold elementType at h
    split at h
    · rename_i hs
      obtain ⟨i, d, hi, hd, hs⟩ := def?_of_shape? hs
      cases h
      refine ⟨i, hi, .part hd ?_ hj⟩
      rw [hs]
      exact List.mem_singleton_self _
    · cases h
  | deref =>
    change t.targetType type = some j at h
    unfold targetType at h
    split at h
    · rename_i hs
      obtain ⟨i, d, hi, hd, hs⟩ := def?_of_shape? hs
      exact ⟨i, hi, .ref hd hs⟩
    · cases h

/-- **If what a path leads to carries references, so does what it starts from.** -/
theorem carries_of_path {path : List Projection} {type : Option TypeId} {j : TypeId}
    (h : path.foldl t.stepType type = some j) (hj : t.Carries j) :
    ∃ i, type = some i ∧ t.Carries i := by
  induction path generalizing type with
  | nil => exact ⟨j, h, hj⟩
  | cons e path ih =>
    obtain ⟨k, hk, hc⟩ := ih h
    exact carries_of_stepType hk hc

end TypeTable

end Ownership
