import Mathlib.Data.List.Basic
import Mathlib.Logic.Relation
import Ownership.Types.Registry

/-!
# Calls on a type table

The table is used through calls that register a type or give one on demand. Whatever calls were made,
refused ones included, the table is sound:

* `TypeCall`, `TypeTable.call`, `TypeTable.after`: the calls, and the table behind a call;
* `TypeTable.Sound`: what is true of every table that calls lead to;
* `TypeTable.call_cases`: a call finds a definition or enters one that the table admits;
* `TypeTable.Sound.call`: calls keep a table sound, change no definition, and give what was asked for;
* `TypeTable.Sound.afterAll`: the same for every history of calls.
-/

namespace Ownership

/-! ## 1. Calls -/

/-- The call asks for a type built on another one. -/
def TypeCall.isBuilt : TypeCall → Bool
  | .ref .. | .array _ => true
  | _ => false

/-- The definition is one that the call asks for. -/
def TypeCall.Asks : TypeCall → TypeDef → Prop
  | .scalar n, d => d = ⟨n, .scalar⟩
  | .owned n, d => d = ⟨n, .owned⟩
  | .struct n fields copy, d => d = ⟨n, .struct fields copy⟩
  | .int, d => d = ⟨"Int", .scalar⟩
  | .bool, d => d = ⟨"Bool", .scalar⟩
  | .unknown, d => d = ⟨"Unknown", .unknown⟩
  | .ref u target, d => ∃ i, target = some i ∧ d.shape = .ref u i
  | .array element, d => ∃ i, element = some i ∧ d.shape = .array i

namespace TypeTable

def call (t : TypeTable) : TypeCall → Except TypeError (TypeTable × TypeId)
  | .scalar n => t.addScalar n
  | .owned n => t.addOwned n
  | .struct n fields copy => t.addStruct n fields copy
  | .int => t.ensureInt
  | .bool => t.ensureBool
  | .unknown => t.ensureUnknown
  | .ref u target => t.ensureRef u target
  | .array element => t.ensureArray element

/-- The table behind a call; one that is refused hands out no other table. -/
def after (t : TypeTable) (c : TypeCall) : TypeTable :=
  match t.call c with
  | .ok (t', _) => t'
  | .error _ => t

/-- The table behind several calls. -/
def afterAll (t : TypeTable) (cs : List TypeCall) : TypeTable := cs.foldl after t

/-- Why a call is refused: a field is in the way, a name is taken, or there is nothing to build on. -/
def Refuses (t : TypeTable) : TypeCall → TypeError → Prop
  | .scalar n, e | .owned n, e => (t.lookup n).isSome = true ∧ e = .duplicateName n
  | .struct n fields copy, e =>
    (copy = true ∧ ∃ f, fields.find? (fun f => !t.isCopy f.2) = some f ∧ e = .nonCopyField n f.1) ∨
      ((copy = true → ∀ f ∈ fields, t.isCopy f.2 = true) ∧ (t.lookup n).isSome = true ∧
        e = .duplicateName n)
  | .int, e => t.intId = none ∧ (t.lookup "Int").isSome = true ∧ e = .duplicateName "Int"
  | .bool, e => t.boolId = none ∧ (t.lookup "Bool").isSome = true ∧ e = .duplicateName "Bool"
  | .unknown, e =>
    t.unknownId = none ∧ (t.lookup "Unknown").isSome = true ∧ e = .duplicateName "Unknown"
  | .ref _ id, e | .array id, e => id.bind t.def? = none ∧ e = .unknownId id

/-! ## 2. Numbers -/

section Numbers

variable {t : TypeTable} {i : Int} {d : TypeDef}

theorem def?_succ (t : TypeTable) (n : Nat) : t.def? ((n + 1 : Nat) : Int) = t.defs[n]? := rfl

theorem def?_eq_some : t.def? i = some d ↔ ∃ n : Nat, i = ((n + 1 : Nat) : Int) ∧ t.defs[n]? = some d := by
  constructor
  · intro h
    unfold def? at h
    split at h
    · exact ⟨_, rfl, h⟩
    · cases h
  · rintro ⟨n, rfl, h⟩
    exact h

theorem contains_iff : t.contains i = true ↔ 1 ≤ i ∧ i ≤ t.defs.length := by
  rw [contains, Option.isSome_iff_exists]
  constructor
  · rintro ⟨d, hd⟩
    obtain ⟨n, rfl, hn⟩ := def?_eq_some.mp hd
    have hlt := (List.getElem?_eq_some_iff.mp hn).1
    omega
  · rintro ⟨hpos, hle⟩
    obtain ⟨n, rfl⟩ : ∃ n : Nat, i = ((n + 1 : Nat) : Int) := ⟨(i - 1).toNat, by omega⟩
    have hlt : n < t.defs.length := by omega
    exact ⟨t.defs.get ⟨n, hlt⟩, List.getElem?_eq_getElem hlt⟩

/-- A number that was given out keeps its definition when the table grows. -/
theorem def?_of_grown {t' : TypeTable} (hg : t.defs <+: t'.defs) (h : t.def? i = some d) :
    t'.def? i = some d := by
  obtain ⟨n, rfl, hn⟩ := def?_eq_some.mp h
  obtain ⟨more, hmore⟩ := hg
  rw [def?_succ, ← hmore, List.getElem?_append_left (List.getElem?_eq_some_iff.mp hn).1]
  exact hn

/-- What stands in a table with one more definition. -/
theorem def?_append {t' : TypeTable} {e : TypeDef} (hg : t'.defs = t.defs ++ [e]) :
    t'.def? i = some d ↔ t.def? i = some d ∨ (i = ((t.defs.length + 1 : Nat) : Int) ∧ d = e) := by
  constructor
  · intro h
    obtain ⟨n, rfl, hn⟩ := def?_eq_some.mp h
    rw [hg] at hn
    rcases Nat.lt_or_ge n t.defs.length with hlt | hge
    · rw [List.getElem?_append_left hlt] at hn
      exact Or.inl hn
    · rw [List.getElem?_append_right hge, List.getElem?_singleton] at hn
      split_ifs at hn with hz
      refine Or.inr ⟨?_, (Option.some.inj hn).symm⟩
      have hn' : n = t.defs.length := by omega
      rw [hn']
  · rintro (h | ⟨rfl, rfl⟩)
    · exact def?_of_grown ⟨[e], hg.symm⟩ h
    · rw [def?_succ, hg, List.getElem?_concat_length]

/-- A number that was given out is smaller than the next one. -/
theorem lt_next (h : t.def? i = some d) : i < ((t.defs.length + 1 : Nat) : Int) := by
  have hle := (contains_iff.mp (Option.isSome_iff_exists.mpr ⟨d, h⟩)).2
  omega

theorem def?_of_findId? {p : TypeDef → Bool} (h : t.findId? p = some i) :
    ∃ d, t.def? i = some d ∧ p d = true := by
  obtain ⟨n, hn, rfl⟩ := Option.map_eq_some_iff.mp h
  obtain ⟨hlt, hp, _⟩ := List.findIdx?_eq_some_iff_getElem.mp hn
  exact ⟨_, List.getElem?_eq_getElem hlt, hp⟩

theorem findId?_eq_none {p : TypeDef → Bool} :
    t.findId? p = none ↔ ∀ i d, t.def? i = some d → p d = false := by
  rw [findId?, Option.map_eq_none_iff, List.findIdx?_eq_none_iff]
  constructor
  · intro h i d hd
    obtain ⟨n, _, hn⟩ := def?_eq_some.mp hd
    exact h d (List.mem_of_getElem? hn)
  · intro h d hd
    obtain ⟨n, hn⟩ := List.mem_iff_getElem?.mp hd
    exact h ((n + 1 : Nat) : Int) d hn

theorem def?_of_lookup {n : String} (h : t.lookup n = some i) :
    ∃ d, t.def? i = some d ∧ d.shape.isNamed = true ∧ d.name = n := by
  obtain ⟨d, hd, hp⟩ := def?_of_findId? h
  rw [Bool.and_eq_true, beq_iff_eq] at hp
  exact ⟨d, hd, hp⟩

theorem lookup_eq_none {n : String} : t.lookup n = none ↔
    ∀ i d, t.def? i = some d → d.shape.isNamed = true → d.name ≠ n := by
  refine findId?_eq_none.trans (forall₃_congr fun i d _ => ?_)
  rw [Bool.and_eq_false_iff, beq_eq_false_iff_ne, ← Bool.not_eq_true, ← imp_iff_not_or]

end Numbers

/-! ## 3. Copyable types -/

end TypeTable

/-- The type that the shape is built on. -/
def Shape.target? : Shape → Option TypeId
  | .ref _ i | .array i => some i
  | _ => none

theorem Shape.target?_of_isNamed {s : Shape} (h : s.isNamed = true) : s.target? = none := by
  cases s with
  | ref u i => cases h
  | array i => cases h
  | _ => rfl

namespace TypeTable

section Copies

variable {t : TypeTable} {id : Option TypeId}

theorem isCopy_iff : t.isCopy id = true ↔ ∃ d, id.bind t.def? = some d ∧ d.shape.isPlain = true := by
  unfold isCopy shape?
  cases id.bind t.def? with
  | none =>
    constructor
    · intro h
      cases h
    · rintro ⟨_, h, _⟩
      cases h
  | some d =>
    obtain ⟨n, s⟩ := d
    constructor
    · intro h
      refine ⟨_, rfl, ?_⟩
      cases s with
      | scalar => rfl
      | ref u i => rfl
      | struct fields copy => exact h
      | owned => cases h
      | array i => cases h
      | unknown => cases h
    · rintro ⟨_, h, hp⟩
      cases h
      cases s with
      | scalar => rfl
      | ref u i => rfl
      | struct fields copy => exact hp
      | owned => cases hp
      | array i => cases hp
      | unknown => cases hp

theorem bind_def?_of_grown {t' : TypeTable} (hg : t.defs <+: t'.defs) {d : TypeDef}
    (h : id.bind t.def? = some d) : id.bind t'.def? = some d := by
  obtain ⟨i, rfl, hi⟩ := Option.bind_eq_some_iff.mp h
  exact def?_of_grown hg hi

theorem isCopy_of_grown {t' : TypeTable} (hg : t.defs <+: t'.defs) (h : t.isCopy id = true) :
    t'.isCopy id = true := by
  obtain ⟨d, hd, hp⟩ := isCopy_iff.mp h
  exact isCopy_iff.mpr ⟨d, bind_def?_of_grown hg hd, hp⟩

/-- A struct has a field of the type. -/
def FieldStep (t : TypeTable) (i j : Option TypeId) : Prop :=
  ∃ d fields copy n, i.bind t.def? = some d ∧ d.shape = .struct fields copy ∧ (n, j) ∈ fields

end Copies

/-! ## 4. Sound tables -/

/-- The types that are given on demand under a name, with the numbers they were given. -/
def given (t : TypeTable) : List (TypeDef × Option TypeId) :=
  [(⟨"Int", .scalar⟩, t.intId), (⟨"Bool", .scalar⟩, t.boolId), (⟨"Unknown", .unknown⟩, t.unknownId)]

/-- What is true of every table that calls lead to. -/
structure Sound (t : TypeTable) : Prop where
  /-- Two named types have two names. -/
  names : ∀ i j d e, t.def? i = some d → t.def? j = some e → d.shape.isNamed = true →
    e.shape.isNamed = true → d.name = e.name → i = j
  /-- A type is built on another one in each way once. -/
  built : ∀ i j d e, t.def? i = some d → t.def? j = some e → d.shape.isNamed = false →
    d.shape = e.shape → i = j
  /-- What a type is built on is registered. -/
  targets : ∀ i d j, t.def? i = some d → d.shape.target? = some j → t.contains j = true
  /-- The fields of a copy struct are copyable and were registered before it. -/
  copies : ∀ (i : Int) d fields, t.def? i = some d → d.shape = .struct fields true →
    ∀ f ∈ fields, ∃ j : Int, f.2 = some j ∧ t.isCopy (some j) = true ∧ j < i
  /-- What was given on demand is what it is called. -/
  given : ∀ x ∈ t.given, ∀ i, x.2 = some i → t.def? i = some x.1

/-- The definition may be entered into the table. -/
structure Admits (t : TypeTable) (d : TypeDef) : Prop where
  name : d.shape.isNamed = true → t.lookup d.name = none
  shape : d.shape.isNamed = false → ∀ i e, t.def? i = some e → e.shape ≠ d.shape
  target : ∀ j, d.shape.target? = some j → t.contains j = true
  fields : ∀ fields, d.shape = .struct fields true → ∀ f ∈ fields, t.isCopy f.2 = true

/-- `t'` is `t` with one more definition under the next number, perhaps remembered as one given on
    demand. -/
structure Enters (t : TypeTable) (d : TypeDef) (t' : TypeTable) (i : TypeId) : Prop where
  defs : t'.defs = t.defs ++ [d]
  number : i = ((t.defs.length + 1 : Nat) : Int)
  given : ∀ x ∈ t'.given, x ∈ t.given ∨ x = (d, some i)

section Enter

variable {t t' : TypeTable} {d : TypeDef} {i : TypeId}

theorem Enters.grown (h : t.Enters d t' i) : t.defs <+: t'.defs := ⟨[d], h.defs.symm⟩

theorem Enters.def? (h : t.Enters d t' i) : t'.def? i = some d :=
  (def?_append h.defs).mpr (Or.inr ⟨h.number, rfl⟩)

theorem Sound.empty : Sound {} where
  names i j d e hi := by
    obtain ⟨_, _, hn⟩ := def?_eq_some.mp hi
    cases hn
  built i j d e hi := by
    obtain ⟨_, _, hn⟩ := def?_eq_some.mp hi
    cases hn
  targets i d j hi := by
    obtain ⟨_, _, hn⟩ := def?_eq_some.mp hi
    cases hn
  copies i d fields hi := by
    obtain ⟨_, _, hn⟩ := def?_eq_some.mp hi
    cases hn
  given x hx i hi := by
    simp only [TypeTable.given, List.mem_cons, List.not_mem_nil, or_false] at hx
    rcases hx with rfl | rfl | rfl <;> cases hi

/-- **Entering a definition that the table admits keeps it sound.** -/
theorem Sound.enter (hs : t.Sound) (ha : t.Admits d) (he : t.Enters d t' i) : t'.Sound where
  names j k a b hj hk hna hnb hname := by
    rcases (def?_append he.defs).mp hj with hj | ⟨rfl, rfl⟩ <;>
      rcases (def?_append he.defs).mp hk with hk | ⟨rfl, rfl⟩
    · exact hs.names j k a b hj hk hna hnb hname
    · exact absurd hname (lookup_eq_none.mp (ha.name hnb) j a hj hna)
    · exact absurd hname.symm (lookup_eq_none.mp (ha.name hna) k b hk hnb)
    · rfl
  built j k a b hj hk hna hshape := by
    rcases (def?_append he.defs).mp hj with hj | ⟨rfl, rfl⟩ <;>
      rcases (def?_append he.defs).mp hk with hk | ⟨rfl, rfl⟩
    · exact hs.built j k a b hj hk hna hshape
    · exact absurd hshape (ha.shape (hshape ▸ hna) j a hj)
    · exact absurd hshape.symm (ha.shape hna k b hk)
    · rfl
  targets j a k hj hk := by
    have hold : t.contains k = true := by
      rcases (def?_append he.defs).mp hj with hj | ⟨_, rfl⟩
      · exact hs.targets j a k hj hk
      · exact ha.target k hk
    obtain ⟨e, hk'⟩ := Option.isSome_iff_exists.mp hold
    exact Option.isSome_iff_exists.mpr ⟨e, def?_of_grown he.grown hk'⟩
  copies j a fields hj hshape f hf := by
    rcases (def?_append he.defs).mp hj with hj | ⟨rfl, rfl⟩
    · obtain ⟨k, hk, hcopy, hlt⟩ := hs.copies j a fields hj hshape f hf
      exact ⟨k, hk, isCopy_of_grown he.grown hcopy, hlt⟩
    · have hcopy := ha.fields fields hshape f hf
      obtain ⟨e, hbind, _⟩ := isCopy_iff.mp hcopy
      obtain ⟨k, hk, hdef⟩ := Option.bind_eq_some_iff.mp hbind
      exact ⟨k, hk, hk ▸ isCopy_of_grown he.grown hcopy, lt_next hdef⟩
  given x hx j hj := by
    rcases he.given x hx with hx | rfl
    · exact def?_of_grown he.grown (hs.given x hx j hj)
    · cases hj
      exact he.def?

end Enter

/-! ## 5. What calls do -/

section Calls

variable {t t' : TypeTable} {c : TypeCall} {i : TypeId}

/-- A call under a name of its own enters a definition that the table admits. -/
theorem add_eq_ok {d : TypeDef} (hname : d.shape.isNamed = true)
    (hfields : ∀ fields, d.shape = .struct fields true → ∀ f ∈ fields, t.isCopy f.2 = true)
    (h : t.add d = .ok (t', i)) : t.Admits d ∧ t' = (t.push d).1 ∧ i = (t.push d).2 := by
  unfold add at h
  split at h
  · cases h
  · rename_i hnone
    cases h
    refine ⟨⟨fun _ => hnone, fun hb => ?_, fun j hj => ?_, hfields⟩, rfl, rfl⟩
    · cases hname.symm.trans hb
    · cases (Shape.target?_of_isNamed hname).symm.trans hj

theorem push_enters (t : TypeTable) (d : TypeDef) : t.Enters d (t.push d).1 (t.push d).2 :=
  ⟨rfl, rfl, fun _ hx => Or.inl hx⟩

/-- A call gives a definition that is in the table, or enters one that the table admits. -/
def Grants (t : TypeTable) (c : TypeCall) (t' : TypeTable) (i : TypeId) : Prop :=
  (t' = t ∧ ∃ d, t.def? i = some d ∧ c.Asks d) ∨ ∃ d, c.Asks d ∧ t.Admits d ∧ t.Enters d t' i

theorem grants_of_add {d : TypeDef} (hname : d.shape.isNamed = true)
    (hfields : ∀ fields, d.shape = .struct fields true → ∀ f ∈ fields, t.isCopy f.2 = true)
    (hask : c.Asks d) (h : t.add d = .ok (t', i)) : t.Grants c t' i := by
  obtain ⟨ha, rfl, rfl⟩ := add_eq_ok hname hfields h
  exact Or.inr ⟨d, hask, ha, t.push_enters d⟩

theorem grants_struct {n : String} {fields : Roster (Option TypeId)} {copy : Bool}
    (h : t.addStruct n fields copy = .ok (t', i)) : t.Grants (.struct n fields copy) t' i := by
  unfold addStruct at h
  split at h
  · cases h
  · rename_i hnone
    refine grants_of_add rfl (fun fs hfs f hf => ?_) rfl h
    cases hfs
    rw [if_pos rfl, List.find?_eq_none] at hnone
    simpa using hnone f hf

/-- The type of a definition, given on demand: the one remembered, or a new one. -/
def give (t : TypeTable) (d : TypeDef) (known : Option TypeId)
    (remember : TypeTable → TypeId → TypeTable) : Except TypeError (TypeTable × TypeId) :=
  match known with
  | some i => .ok (t, i)
  | none => (t.add d).map fun x => (remember x.1 x.2, x.2)

theorem call_int (t : TypeTable) :
    t.call .int = t.give ⟨"Int", .scalar⟩ t.intId fun u i => { u with intId := some i } := by
  unfold call ensureInt give
  cases t.intId <;> rfl

theorem call_bool (t : TypeTable) :
    t.call .bool = t.give ⟨"Bool", .scalar⟩ t.boolId fun u i => { u with boolId := some i } := by
  unfold call ensureBool give
  cases t.boolId <;> rfl

theorem call_unknown (t : TypeTable) : t.call .unknown =
    t.give ⟨"Unknown", .unknown⟩ t.unknownId fun u i => { u with unknownId := some i } := by
  unfold call ensureUnknown give
  cases t.unknownId <;> rfl

theorem grants_give (hs : t.Sound) {d : TypeDef} {known : Option TypeId}
    {remember : TypeTable → TypeId → TypeTable} (h : t.give d known remember = .ok (t', i))
    (hknown : (d, known) ∈ t.given)
    (hdefs : ∀ u j, (remember u j).defs = u.defs)
    (hgiven : ∀ u j, ∀ x ∈ (remember u j).given, x ∈ u.given ∨ x = (d, some j))
    (hask : c.Asks d) (hname : d.shape.isNamed = true)
    (hfields : ∀ fields, d.shape = .struct fields true → ∀ f ∈ fields, t.isCopy f.2 = true) :
    t.Grants c t' i := by
  unfold give at h
  cases known with
  | some j =>
    cases h
    exact Or.inl ⟨rfl, d, hs.given _ hknown i rfl, hask⟩
  | none =>
    cases hadd : t.add d with
    | error e =>
      rw [hadd] at h
      cases h
    | ok x =>
      rw [hadd] at h
      cases h
      obtain ⟨ha, htable, hnumber⟩ := add_eq_ok hname hfields hadd
      refine Or.inr ⟨d, hask, ha, ?_, hnumber, fun y hy => ?_⟩
      · rw [hdefs, htable]
        rfl
      · rcases hgiven x.1 x.2 y hy with hy | hy
        · rw [htable] at hy
          exact Or.inl hy
        · exact Or.inr hy

/-- A type built on another one is the one in the table, or a new one. -/
theorem grants_built {shape : TypeId → Shape} {rename : String → String} {id : Option TypeId}
    (hnamed : ∀ j, (shape j).isNamed = false) (htarget : ∀ j, (shape j).target? = some j)
    (hask : ∀ j d, id = some j → d.shape = shape j → c.Asks d)
    (h : t.ensureBuilt shape rename id = .ok (t', i)) : t.Grants c t' i := by
  unfold ensureBuilt at h
  cases id with
  | none => cases h
  | some j =>
    cases hfind : t.findId? fun d => d.shape == shape j with
    | some k =>
      simp only [hfind] at h
      cases h
      obtain ⟨d, hd, hshape⟩ := def?_of_findId? hfind
      exact Or.inl ⟨rfl, d, hd, hask j d rfl (beq_iff_eq.mp hshape)⟩
    | none =>
      simp only [hfind] at h
      cases hj : t.def? j with
      | none =>
        simp only [TypeTable.get, Option.bind_some, hj] at h
        cases h
      | some e =>
        simp only [TypeTable.get, Option.bind_some, hj] at h
        cases h
        have hnew : ∀ k b, t.def? k = some b → b.shape ≠ shape j := by
          intro k b hk
          simpa using findId?_eq_none.mp hfind k b hk
        refine Or.inr ⟨⟨rename e.name, shape j⟩, hask j _ rfl rfl, ⟨fun hn => ?_, fun _ => hnew,
          fun k hk => ?_, fun fields hf => ?_⟩, t.push_enters _⟩
        · cases (hnamed j).symm.trans hn
        · cases (htarget j).symm.trans hk
          exact Option.isSome_iff_exists.mpr ⟨e, hj⟩
        · have hnone : (shape j).target? = none := congrArg Shape.target? hf
          cases (htarget j).symm.trans hnone

/-- **What a call does that is not refused.** -/
theorem call_cases (hs : t.Sound) (h : t.call c = .ok (t', i)) : t.Grants c t' i := by
  cases c with
  | scalar n => exact grants_of_add rfl (by rintro _ ⟨⟩) rfl h
  | owned n => exact grants_of_add rfl (by rintro _ ⟨⟩) rfl h
  | struct n fields copy => exact grants_struct h
  | int =>
    refine grants_give hs (t.call_int.symm.trans h) (.head _) (fun _ _ => rfl) (fun u j x hx => ?_)
      rfl rfl (by rintro _ ⟨⟩)
    simp only [TypeTable.given, List.mem_cons] at hx ⊢
    tauto
  | bool =>
    refine grants_give hs (t.call_bool.symm.trans h) (.tail _ (.head _)) (fun _ _ => rfl)
      (fun u j x hx => ?_) rfl rfl (by rintro _ ⟨⟩)
    simp only [TypeTable.given, List.mem_cons] at hx ⊢
    tauto
  | unknown =>
    refine grants_give hs (t.call_unknown.symm.trans h) (.tail _ (.tail _ (.head _))) (fun _ _ => rfl)
      (fun u j x hx => ?_) rfl rfl (by rintro _ ⟨⟩)
    simp only [TypeTable.given, List.mem_cons] at hx ⊢
    tauto
  | ref u target =>
    exact grants_built (fun _ => rfl) (fun _ => rfl) (fun j d hj hd => ⟨j, hj, hd⟩) h
  | array element =>
    unfold TypeTable.call ensureArray at h
    exact grants_built (fun _ => rfl) (fun _ => rfl) (fun j d hj hd => ⟨j, hj, hd⟩) h

/-- **Calls keep a table sound.** They change no definition, and the number they give out is that of a
    definition they asked for. -/
theorem Sound.call (hs : t.Sound) (h : t.call c = .ok (t', i)) :
    t'.Sound ∧ t.defs <+: t'.defs ∧ ∃ d, t'.def? i = some d ∧ c.Asks d := by
  rcases call_cases hs h with ⟨rfl, hfound⟩ | ⟨d, hask, ha, he⟩
  · exact ⟨hs, List.prefix_rfl, hfound⟩
  · exact ⟨hs.enter ha he, he.grown, d, he.def?, hask⟩

theorem after_of_ok (h : t.call c = .ok (t', i)) : t.after c = t' := by
  unfold after
  rw [h]

theorem after_of_error {e : TypeError} (h : t.call c = .error e) : t.after c = t := by
  unfold after
  rw [h]

theorem Sound.after (hs : t.Sound) (c : TypeCall) : (t.after c).Sound ∧ t.defs <+: (t.after c).defs := by
  cases h : t.call c with
  | error e =>
    rw [after_of_error h]
    exact ⟨hs, List.prefix_rfl⟩
  | ok x =>
    rw [after_of_ok h]
    exact ⟨(hs.call h).1, (hs.call h).2.1⟩

/-- What a history of calls keeps. -/
theorem Sound.afterAll (hs : t.Sound) (cs : List TypeCall) :
    (t.afterAll cs).Sound ∧ t.defs <+: (t.afterAll cs).defs := by
  induction cs generalizing t with
  | nil => exact ⟨hs, List.prefix_rfl⟩
  | cons c cs ih =>
    obtain ⟨hnext, hgrown⟩ := hs.after c
    obtain ⟨hlast, hgrown'⟩ := ih hnext
    exact ⟨hlast, hgrown.trans hgrown'⟩

/-! ## 6. Refused calls -/

variable {e : TypeError}

theorem add_eq_error {d : TypeDef} :
    t.add d = .error e ↔ (t.lookup d.name).isSome = true ∧ e = .duplicateName d.name := by
  unfold add
  cases t.lookup d.name with
  | none => simp
  | some j => simp [eq_comm]

theorem give_eq_error {d : TypeDef} {known : Option TypeId} {remember : TypeTable → TypeId → TypeTable} :
    t.give d known remember = .error e ↔
      known = none ∧ (t.lookup d.name).isSome = true ∧ e = .duplicateName d.name := by
  rw [← add_eq_error]
  unfold give
  cases known with
  | some j => simp
  | none => cases t.add d <;> simp [Except.map]

theorem addStruct_eq_error {n : String} {fields : Roster (Option TypeId)} {copy : Bool} :
    t.addStruct n fields copy = .error e ↔ t.Refuses (.struct n fields copy) e := by
  have hadd : t.add ⟨n, .struct fields copy⟩ = .error e ↔
    (t.lookup n).isSome = true ∧ e = .duplicateName n := add_eq_error
  simp only [Refuses, ← hadd]
  unfold addStruct
  cases copy with
  | false => simp
  | true =>
    rw [if_pos rfl]
    cases hfind : fields.find? fun f => !t.isCopy f.2 with
    | none =>
      have hall : ∀ f ∈ fields, t.isCopy f.2 = true := by simpa using hfind
      constructor
      · intro h
        exact Or.inr ⟨fun _ => hall, h⟩
      · rintro (⟨_, f, hf, _⟩ | ⟨_, h⟩)
        · cases hf
        · exact h
    | some f =>
      have hf := List.mem_of_find?_eq_some hfind
      have hnot : t.isCopy f.2 = false := by simpa using List.find?_some hfind
      constructor
      · intro h
        cases h
        exact Or.inl ⟨rfl, f, rfl, rfl⟩
      · rintro (⟨_, g, hg, rfl⟩ | ⟨hall, _⟩)
        · cases hg
          rfl
        · cases (hall rfl f hf).symm.trans hnot

theorem ensureBuilt_eq_error (hs : t.Sound) {shape : TypeId → Shape} {rename : String → String}
    {id : Option TypeId} (htarget : ∀ j, (shape j).target? = some j) :
    t.ensureBuilt shape rename id = .error e ↔ id.bind t.def? = none ∧ e = .unknownId id := by
  unfold ensureBuilt
  cases id with
  | none => simp [eq_comm]
  | some j =>
    cases hfind : t.findId? fun d => d.shape == shape j with
    | some k =>
      obtain ⟨d, hd, hshape⟩ := def?_of_findId? hfind
      have hj : t.contains j = true := hs.targets k d j hd (beq_iff_eq.mp hshape ▸ htarget j)
      obtain ⟨a, hj⟩ := Option.isSome_iff_exists.mp hj
      simp [hfind, hj]
    | none => cases hj : t.def? j <;> simp [hfind, TypeTable.get, hj, Except.map, eq_comm]

/-- **Which calls are refused, and why.** -/
theorem Sound.refuses_iff (hs : t.Sound) : t.call c = .error e ↔ t.Refuses c e := by
  cases c with
  | scalar n => exact add_eq_error
  | owned n => exact add_eq_error
  | struct n fields copy => exact addStruct_eq_error
  | int =>
    rw [call_int]
    exact give_eq_error
  | bool =>
    rw [call_bool]
    exact give_eq_error
  | unknown =>
    rw [call_unknown]
    exact give_eq_error
  | ref u target => exact ensureBuilt_eq_error hs fun _ => rfl
  | array element =>
    unfold TypeTable.call ensureArray
    exact ensureBuilt_eq_error hs fun _ => rfl

end Calls

/-! ## 7. Every history -/

section Histories

variable {t : TypeTable}

theorem Sound.lookup_iff (hs : t.Sound) {n : String} {i : Int} : t.lookup n = some i ↔
    ∃ d, t.def? i = some d ∧ d.shape.isNamed = true ∧ d.name = n := by
  refine ⟨def?_of_lookup, ?_⟩
  rintro ⟨d, hd, hnamed, hname⟩
  cases hl : t.lookup n with
  | none => exact absurd hname (lookup_eq_none.mp hl i d hd hnamed)
  | some j =>
    obtain ⟨e, he, hnamed', hname'⟩ := def?_of_lookup hl
    rw [hs.names i j d e hd he hnamed hnamed' (hname.trans hname'.symm)]

/-- A built type is found by what it is like. -/
theorem Sound.findId?_shape_iff (hs : t.Sound) {s : Shape} (hnamed : s.isNamed = false) {i : Int} :
    (t.findId? fun d => d.shape == s) = some i ↔ ∃ d, t.def? i = some d ∧ d.shape = s := by
  constructor
  · intro h
    obtain ⟨d, hd, hp⟩ := def?_of_findId? h
    exact ⟨d, hd, beq_iff_eq.mp hp⟩
  · rintro ⟨d, hd, rfl⟩
    cases hf : t.findId? fun e => e.shape == d.shape with
    | none => exact absurd (findId?_eq_none.mp hf i d hd) (by simp)
    | some j =>
      obtain ⟨e, he, hp⟩ := def?_of_findId? hf
      rw [hs.built i j d e hd he hnamed (beq_iff_eq.mp hp).symm]

theorem Sound.isCopy_fieldStep (hs : t.Sound) {i j : Option TypeId} (hcopy : t.isCopy i = true)
    (h : t.FieldStep i j) : t.isCopy j = true := by
  obtain ⟨d, fields, copy, n, hd, hshape, hmem⟩ := h
  obtain ⟨e, he, hplain⟩ := isCopy_iff.mp hcopy
  cases hd.symm.trans he
  rw [hshape] at hplain
  cases hplain
  obtain ⟨k, _, hk⟩ := Option.bind_eq_some_iff.mp hd
  obtain ⟨m, hm, hcopy', _⟩ := hs.copies k d fields hk hshape (n, j) hmem
  have hm : j = some m := hm
  rw [hm]
  exact hcopy'

end Histories

end TypeTable

namespace TypeCall

variable {c c' : TypeCall} {d d' : TypeDef}

theorem isNamed_of_asks (hb : c.isBuilt = true) (h : c.Asks d) : d.shape.isNamed = false := by
  cases c with
  | ref u id =>
    obtain ⟨i, _, hshape⟩ := h
    rw [hshape]
    rfl
  | array id =>
    obtain ⟨i, _, hshape⟩ := h
    rw [hshape]
    rfl
  | _ => cases hb

/-- What a built type is like says which call asks for it. -/
theorem eq_iff_of_asks (hb : c.isBuilt = true) (hb' : c'.isBuilt = true) (h : c.Asks d)
    (h' : c'.Asks d') : d.shape = d'.shape ↔ c = c' := by
  cases c with
  | ref u id =>
    obtain ⟨i, rfl, hs⟩ := h
    cases c' with
    | ref u' id' =>
      obtain ⟨i', rfl, hs'⟩ := h'
      simp [hs, hs']
    | array id' =>
      obtain ⟨i', rfl, hs'⟩ := h'
      simp [hs, hs']
    | _ => cases hb'
  | array id =>
    obtain ⟨i, rfl, hs⟩ := h
    cases c' with
    | ref u' id' =>
      obtain ⟨i', rfl, hs'⟩ := h'
      simp [hs, hs']
    | array id' =>
      obtain ⟨i', rfl, hs'⟩ := h'
      simp [hs, hs']
    | _ => cases hb'
  | _ => cases hb

end TypeCall

/-- Two calls for built types, at any two moments of a history, give the same number if they are the
    same call. -/
theorem TypeTable.Sound.built_iff {t t₁ t₂ : TypeTable} (hs : t.Sound) {c c' : TypeCall} {i j : TypeId}
    (hb : c.isBuilt = true) (hb' : c'.isBuilt = true) (h : t.call c = .ok (t₁, i)) (more : List TypeCall)
    (h' : (t₁.afterAll more).call c' = .ok (t₂, j)) : i = j ↔ c = c' := by
  obtain ⟨hs₁, _, d, hd, hask⟩ := hs.call h
  obtain ⟨hmid, hgrown⟩ := hs₁.afterAll more
  obtain ⟨hs₂, hgrown', e, he, hask'⟩ := hmid.call h'
  have hd₂ : t₂.def? i = some d := def?_of_grown (hgrown.trans hgrown') hd
  rw [← TypeCall.eq_iff_of_asks hb hb' hask hask']
  constructor
  · rintro rfl
    cases hd₂.symm.trans he
    rfl
  · exact hs₂.built i j d e hd₂ he (TypeCall.isNamed_of_asks hb hask)

end Ownership
