import Mathlib.Data.List.Flatten
import Ownership.Proofs.Types.Carrying

/-!
# References in types, chain by chain

Structs may be built on themselves, on each other in a circle and on types that are registered later
or never. The search for references looks through the parts of a type one after the other and
remembers the types it has opened; a type that is still being looked through counts like one that is
done. This neither cuts a chain off nor goes round in circles:

* `TypeTable.Scans`: the search, part by part, with one memory for all parts;
* `TypeTable.exists_scan`, `TypeTable.Scans.findRef_eq`: it ends, and `findRef` runs it;
* `TypeTable.RefChain`: registered structs and arrays, each built on the next type, down to a reference;
* `carriesRef_exact`: what is found is what such a chain leads to, in a part of a value only if in the
  value.
-/

namespace Ownership

open Std (ExtTreeSet)

namespace TypeTable

variable {t : TypeTable}

/-! ## 1. The search -/

/-- A search through types, one after the other: `seen` are the types opened before and `seen'` those
    opened when it ends, which it does at the first reference (`found`). A type opened before is passed
    over, and so is a number that no type has. -/
inductive Scans (t : TypeTable) : (ids : List TypeId) → (seen : ExtTreeSet TypeId) →
    (found : Bool) → (seen' : ExtTreeSet TypeId) → Prop
  | nil (seen : ExtTreeSet TypeId) : t.Scans [] seen false seen
  | pass {i : TypeId} {rest : List TypeId} {seen seen' : ExtTreeSet TypeId} {found : Bool}
      (hi : i ∈ seen ∨ t.def? i = none) (h : t.Scans rest seen found seen') :
      t.Scans (i :: rest) seen found seen'
  | ref {i : TypeId} {rest : List TypeId} {seen : ExtTreeSet TypeId} {d : TypeDef} {unique : Bool}
      {target : TypeId} (hi : i ∉ seen) (hd : t.def? i = some d) (hs : d.shape = .ref unique target) :
      t.Scans (i :: rest) seen true (seen.insert i)
  | inside {i : TypeId} {rest : List TypeId} {seen seen' : ExtTreeSet TypeId} {d : TypeDef}
      (hi : i ∉ seen) (hd : t.def? i = some d) (hs : ∀ u j, d.shape ≠ .ref u j)
      (h : t.Scans d.shape.inner (seen.insert i) true seen') : t.Scans (i :: rest) seen true seen'
  | behind {i : TypeId} {rest : List TypeId} {seen seen' seen'' : ExtTreeSet TypeId} {found : Bool}
      {d : TypeDef} (hi : i ∉ seen) (hd : t.def? i = some d) (hs : ∀ u j, d.shape ≠ .ref u j)
      (h : t.Scans d.shape.inner (seen.insert i) false seen') (h' : t.Scans rest seen' found seen'') :
      t.Scans (i :: rest) seen found seen''

/-- Nothing is forgotten. -/
theorem Scans.mono {ids : List TypeId} {seen seen' : ExtTreeSet TypeId} {found : Bool}
    (h : t.Scans ids seen found seen') {i : TypeId} (hi : i ∈ seen) : i ∈ seen' := by
  induction h with
  | nil _ => exact hi
  | pass _ _ ih => exact ih hi
  | ref _ _ _ => exact mem_insert_iff.mpr (.inr hi)
  | inside _ _ _ _ ih => exact ih (mem_insert_iff.mpr (.inr hi))
  | behind _ _ _ _ _ ih ih' => exact ih' (ih (mem_insert_iff.mpr (.inr hi)))

/-- The more is opened, the less there is to do. -/
theorem openings_mono {waiting : List TypeId} {seen seen' : ExtTreeSet TypeId}
    (h : ∀ i ∈ seen, i ∈ seen') : t.openings waiting seen' ≤ t.openings waiting seen := by
  have hsub : (t.unopened seen').Sublist (t.unopened seen) := by
    refine List.monotone_filter_right _ fun x hx => ?_
    rw [Bool.not_eq_true', ← Bool.not_eq_true, ← ExtTreeSet.mem_iff_contains] at hx ⊢
    exact fun hseen => hx (h _ hseen)
  have hlen := (hsub.flatMap fun x => x.1.shape.inner).length_le
  rw [openings, openings]
  omega

/-- **The search ends**: every type that is opened is one less to open. -/
theorem exists_scan (ids : List TypeId) (seen : ExtTreeSet TypeId) :
    ∃ found seen', t.Scans ids seen found seen' := by
  induction hn : t.openings ids seen using Nat.strong_induction_on generalizing ids seen with
  | _ n ih =>
    cases ids with
    | nil => exact ⟨_, _, .nil seen⟩
    | cons i rest =>
      have hrest : t.openings rest seen < n := by
        rw [← hn, openings, openings, List.length_cons]
        omega
      by_cases hi : i ∈ seen ∨ t.def? i = none
      · obtain ⟨found, seen', h⟩ := ih _ hrest rest seen rfl
        exact ⟨_, _, .pass hi h⟩
      · obtain ⟨hi, hd⟩ := not_or.mp hi
        obtain ⟨d, hd⟩ := Option.ne_none_iff_exists'.mp hd
        by_cases hs : ∃ u j, d.shape = .ref u j
        · obtain ⟨u, j, hs⟩ := hs
          exact ⟨_, _, .ref hi hd hs⟩
        · have hs : ∀ u j, d.shape ≠ .ref u j := fun u j h => hs ⟨u, j, h⟩
          have hone : t.openings (d.shape.inner ++ rest) (seen.insert i) + 1 = t.openings (i :: rest) seen :=
            openings_insert hi hd
          have hinner : t.openings d.shape.inner (seen.insert i) < n := by
            rw [openings, List.length_append] at hone
            rw [openings]
            omega
          obtain ⟨found, seen', h⟩ := ih _ hinner _ _ rfl
          cases found with
          | true => exact ⟨_, _, .inside hi hd hs h⟩
          | false =>
            have hle : t.openings rest seen' ≤ t.openings rest seen :=
              openings_mono fun k hk => h.mono (mem_insert_iff.mpr (.inr hk))
            obtain ⟨found, seen'', h'⟩ := ih _ (Nat.lt_of_le_of_lt hle hrest) rest seen' rfl
            exact ⟨_, _, .behind hi hd hs h h'⟩

section Steps

variable {fuel : Nat} {i : TypeId} {d : TypeDef} {rest : List TypeId} {seen : ExtTreeSet TypeId}

theorem findRef_pass (hi : i ∈ seen ∨ t.def? i = none) :
    t.findRef (fuel + 1) (i :: rest) seen = t.findRef fuel rest seen := by
  rcases findRef_cons i rfl with ⟨_, h⟩ | ⟨hseen, d, hd, _⟩
  · exact h.symm
  · rcases hi with hi | hi
    · exact absurd hi hseen
    · cases hi.symm.trans hd

theorem findRef_ref (hi : i ∉ seen) (hd : t.def? i = some d) {u : Bool} {j : TypeId}
    (hs : d.shape = .ref u j) : t.findRef (fuel + 1) (i :: rest) seen = true := by
  rcases findRef_cons i rfl with ⟨h, _⟩ | ⟨_, e, he, ⟨_, _, _, h⟩ | ⟨h, _⟩⟩
  · rcases h with h | h
    · exact absurd h hi
    · cases h.symm.trans hd
  · exact h
  · cases he.symm.trans hd
    exact absurd hs (h u j)

theorem findRef_open (hi : i ∉ seen) (hd : t.def? i = some d) (hs : ∀ u j, d.shape ≠ .ref u j) :
    t.findRef (fuel + 1) (i :: rest) seen = t.findRef fuel (d.shape.inner ++ rest) (seen.insert i) := by
  rcases findRef_cons i rfl with ⟨h, _⟩ | ⟨_, e, he, ⟨u, j, h, _⟩ | ⟨_, h⟩⟩
  · rcases h with h | h
    · exact absurd h hi
    · cases h.symm.trans hd
  · cases he.symm.trans hd
    exact absurd h (hs u j)
  · cases he.symm.trans hd
    exact h.symm

end Steps

/-- **The search is the one that runs**: what it finds, and otherwise what is found behind it. -/
theorem Scans.findRef_eq {ids : List TypeId} {seen seen' : ExtTreeSet TypeId} {found : Bool}
    (h : t.Scans ids seen found seen') : ∃ k, ∀ fuel rest,
      t.findRef (fuel + k) (ids ++ rest) seen = (found || t.findRef fuel rest seen') := by
  induction h with
  | nil seen => exact ⟨0, fun _ _ => rfl⟩
  | pass hi _ ih =>
    obtain ⟨k, hk⟩ := ih
    exact ⟨k + 1, fun fuel rest => (findRef_pass hi).trans (hk fuel rest)⟩
  | ref hi hd hs => exact ⟨1, fun fuel rest => findRef_ref hi hd hs⟩
  | inside hi hd hs _ ih =>
    obtain ⟨k, hk⟩ := ih
    exact ⟨k + 1, fun fuel rest => (findRef_open hi hd hs).trans (hk fuel _)⟩
  | behind hi hd hs _ _ ih ih' =>
    obtain ⟨k, hk⟩ := ih
    obtain ⟨l, hl⟩ := ih'
    refine ⟨l + k + 1, fun fuel rest => ?_⟩
    rw [← hl fuel rest, ← Bool.false_or (t.findRef (fuel + l) _ _), ← hk, Nat.add_assoc fuel]
    exact findRef_open hi hd hs

/-- What a search from one type finds is the answer. -/
theorem Scans.found_eq {i : TypeId} {found : Bool} {seen' : ExtTreeSet TypeId}
    (h : t.Scans [i] ∅ found seen') : found = t.carriesRef (some i) := by
  obtain ⟨k, hk⟩ := h.findRef_eq
  have hrun : ∀ fuel, t.findRef (fuel + k) [i] ∅ = found := by
    intro fuel
    have hnil : t.findRef fuel [] seen' = false := by cases fuel <;> rfl
    have hfound := hk fuel []
    rwa [hnil, Bool.or_false] at hfound
  cases found with
  | true =>
    obtain ⟨j, hj, hc⟩ := carries_of_findRef (hrun 0)
    cases List.mem_singleton.mp hj
    exact (carriesRef_iff.mpr hc).symm
  | false =>
    have hnot : ¬ t.Carries i := not_carries_of_findRef_start (Nat.le_add_right _ k) (hrun (t.partCount + 1))
    exact (eq_false_of_ne_true fun hc => hnot (carriesRef_iff.mp hc)).symm

/-! ## 2. Chains -/

/-- The type is a struct or an array, and `j` is one of the types it is built on. -/
def HasPart (t : TypeTable) (i j : TypeId) : Prop :=
  ∃ s, t.shape? (some i) = some s ∧
    ((∃ fields copy, s = .struct fields copy) ∨ ∃ e, s = .array e) ∧ some j ∈ s.parts

/-- Registered types that are structs or arrays, each built on the next one, but for the last, which is
    a reference. -/
structure RefChain (t : TypeTable) (ids : List TypeId) : Prop where
  registered : ∀ i ∈ ids, t.contains i = true
  parts : ids.IsChain t.HasPart
  ends : ∃ i, ids.getLast? = some i ∧ t.isRef (some i) = true

/-- What a search goes on to are the types that structs and arrays are built on. -/
theorem mem_inner_iff {s : Shape} {j : TypeId} : j ∈ s.inner ↔
    ((∃ fields copy, s = .struct fields copy) ∨ ∃ e, s = .array e) ∧ some j ∈ s.parts := by
  cases s with
  | struct fields copy => simp [Shape.inner, Shape.parts]
  | array e => simp [Shape.inner, Shape.parts]
  | _ => simp [Shape.inner]

theorem hasPart_iff {i j : TypeId} : t.HasPart i j ↔ ∃ d, t.def? i = some d ∧ j ∈ d.shape.inner := by
  constructor
  · intro h
    obtain ⟨s, hs, hpart⟩ := h
    obtain ⟨_, d, hi, hd, rfl⟩ := def?_of_shape? hs
    cases hi
    exact ⟨d, hd, mem_inner_iff.mpr hpart⟩
  · intro h
    obtain ⟨d, hd, hj⟩ := h
    refine ⟨d.shape, ?_, mem_inner_iff.mp hj⟩
    rw [shape?, Option.bind_some, hd, Option.map_some]

theorem isRef_iff {i : TypeId} : t.isRef (some i) = true ↔
    ∃ d u j, t.def? i = some d ∧ d.shape = .ref u j := by
  rw [isRef]
  constructor
  · intro h
    split at h
    · rename_i u j hs
      obtain ⟨_, d, hi, hd, hs⟩ := def?_of_shape? hs
      cases hi
      exact ⟨d, u, j, hd, hs⟩
    · cases h
  · intro h
    obtain ⟨d, u, j, hd, hs⟩ := h
    rw [shape?, Option.bind_some, hd, Option.map_some, hs]

/-- **A type carries references if a chain leads from it to one.** -/
theorem carries_iff_chain {i : TypeId} : t.Carries i ↔ ∃ ids, t.RefChain (i :: ids) := by
  constructor
  · intro h
    induction h with
    | ref hd hs =>
      refine ⟨[], fun j hj => ?_, List.IsChain.singleton _, _, rfl, isRef_iff.mpr ⟨_, _, _, hd, hs⟩⟩
      rw [List.mem_singleton.mp hj, contains, hd, Option.isSome_some]
    | @part i j d hd hj _ ih =>
      obtain ⟨ids, hreg, hparts, hends⟩ := ih
      have hpart : t.HasPart i j := hasPart_iff.mpr ⟨d, hd, hj⟩
      refine ⟨j :: ids, List.forall_mem_cons.mpr ⟨?_, hreg⟩, hparts.cons_cons hpart, ?_⟩
      · rw [contains, hd, Option.isSome_some]
      · rwa [List.getLast?_cons_cons]
  · intro h
    obtain ⟨ids, hchain⟩ := h
    induction ids generalizing i with
    | nil =>
      obtain ⟨_, hlast, href⟩ := hchain.ends
      cases hlast
      obtain ⟨d, u, j, hd, hs⟩ := isRef_iff.mp href
      exact .ref hd hs
    | cons j ids ih =>
      obtain ⟨hreg, hparts, hends⟩ := hchain
      obtain ⟨hpart, hparts⟩ := List.isChain_cons_cons.mp hparts
      obtain ⟨d, hd, hj⟩ := hasPart_iff.mp hpart
      rw [List.getLast?_cons_cons] at hends
      exact .part hd hj (ih ⟨(List.forall_mem_cons.mp hreg).2, hparts, hends⟩)

end TypeTable

/-! ## 3. The answer -/

/-- **A type carries references if a chain of registered types leads from it to a reference, and the
    search tells so for every table**: it ends, with the answer. What carries references inside a
    value makes the value carry them. -/
theorem carriesRef_exact (t : TypeTable) :
    (∀ i, ∃ seen, t.Scans [i] ∅ (t.carriesRef (some i)) seen) ∧
    (∀ i found seen, t.Scans [i] ∅ found seen → found = t.carriesRef (some i)) ∧
    (∀ i, t.carriesRef (some i) = true ↔ ∃ ids, t.RefChain (i :: ids)) ∧
    t.carriesRef none = false ∧
    (∀ (f : Function) (p : Place) (j : TypeId), f.placeType t p = some j →
      t.carriesRef (some j) = true → t.carriesRef (f.locals.typeOf? p.name) = true) := by
  refine ⟨fun i => ?_, fun i found seen h => h.found_eq, fun i => ?_, rfl, fun f p j hp hj => ?_⟩
  · obtain ⟨found, seen, h⟩ := TypeTable.exists_scan [i] ∅
    exact ⟨seen, h.found_eq ▸ h⟩
  · rw [TypeTable.carriesRef_iff, TypeTable.carries_iff_chain]
  · obtain ⟨i, hi, hc⟩ := TypeTable.carries_of_path hp (TypeTable.carriesRef_iff.mp hj)
    rw [hi]
    exact TypeTable.carriesRef_iff.mpr hc

/-- A list whose cells hold references, and two structs built on each other. -/
def circles : TypeTable :=
  TypeTable.afterAll {} [.int, .ref false (some 1),
    .struct "Node" [("next", some 3), ("item", some 2)] false,
    .struct "Ping" [("pong", some 5)] false, .struct "Pong" [("ping", some 4)] false]

/-- A function with a list of its own. -/
def walker : Function :=
  ⟨"walk", [], ⟨⟨.result, "_ret"⟩, []⟩, [("n", ⟨⟨.localVar, "n"⟩, some 3⟩)], []⟩

/-- The list carries references, whose way leads past its own type; the structs of the circle carry
    none. The second cell of the list tells that the list carries references, too. -/
theorem carriesRef_exact_circles :
    circles.RefChain [3, 2] ∧ circles.carriesRef (some 3) = true ∧ circles.carriesRef (some 4) = false ∧
      walker.placeType circles ⟨⟨.localVar, "n"⟩, [.field "next", .field "item"]⟩ = some 2 ∧
      circles.carriesRef (walker.locals.typeOf? "n") = true := by
  obtain ⟨_, _, hchain, _, hpart⟩ := carriesRef_exact circles
  have hlist : circles.RefChain [3, 2] := by
    have hitem : circles.HasPart 3 2 :=
      ⟨.struct [("next", some 3), ("item", some 2)] false, by decide, .inl ⟨_, _, rfl⟩, by decide⟩
    exact ⟨by decide, .cons_cons hitem (.singleton _), 2, rfl, by decide⟩
  have htype : walker.placeType circles ⟨⟨.localVar, "n"⟩, [.field "next", .field "item"]⟩ = some 2 := by
    decide
  have hitem : circles.carriesRef (some 2) = true := by decide
  exact ⟨hlist, (hchain 3).mpr ⟨[2], hlist⟩, by decide, htype, hpart _ _ _ htype hitem⟩

end Ownership
