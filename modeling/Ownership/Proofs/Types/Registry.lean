import Ownership.Proofs.Types.Calls

/-!
# The registry keeps the table

Every part of a registry that calls lead to says what the list table says:

* `Registry.run_enter` and its neighbours: what each step of a call gives and leaves;
* `Registry.Mirrors`: a registry is that of a table, its maps and caches holding for each key what a
  search through the definitions gives;
* `Registry.Mirrors.call`: a call gives on both sides the same, and where it is refused, the registry
  is left as it was;
* `calls_keep_registry`: the statement for every history of calls.
-/

namespace Ownership

/-! ## 1. Steps of a call -/

namespace Registry

/-- The registry with one more definition. -/
def entered (r : Registry) (d : TypeDef) (named : Bool) : Registry :=
  { r with
    nextId := r.nextId + 1
    defs := rebind r.defs r.nextId d
    byName := if named then rebind r.byName d.name r.nextId else r.byName }

section Running

variable {α β : Type} (r : Registry)

theorem run_bind (x : Registering α) (f : α → Registering β) : (x >>= f).run.run r =
    match x.run.run r with
    | (.ok a, r') => (f a).run.run r'
    | (.error e, r') => (.error e, r') := by
  rw [ExceptT.run_bind, StateT.run_bind]
  obtain ⟨e | a, r'⟩ := x.run.run r <;> rfl

theorem run_get_bind (f : Registry → Registering β) :
    ((get : Registering Registry) >>= f).run.run r = (f r).run.run r := by
  rw [run_bind]
  rfl

theorem run_fetch (id : Option TypeId) : (fetch id).run.run r =
    match id with
    | none => (.error (.unknownId none), r)
    | some i =>
      match r.defs i with
      | none => (.error (.unknownId (some i)), r)
      | some d => (.ok (i, d), r) := by
  unfold fetch
  cases id with
  | none => rfl
  | some i =>
    dsimp only
    rw [run_get_bind]
    cases r.defs i <;> rfl

variable {r}

theorem run_enter_taken {d : TypeDef} (h : (r.byName d.name).isSome = true) :
    (enter d true).run.run r = (.error (.duplicateName d.name), r) := by
  unfold enter
  rw [run_get_bind, if_pos (by simpa using h)]
  rfl

theorem run_enter {d : TypeDef} {named : Bool} (h : named = true → r.byName d.name = none) :
    (enter d named).run.run r = (.ok r.nextId, r.entered d named) := by
  unfold enter
  rw [run_get_bind, if_neg (by simpa using h)]
  cases named <;> rfl

theorem run_remembered (slot : Registry → Option TypeId) (keep : TypeId → Registry → Registry)
    (make : Registering TypeId) : (remembered slot keep make).run.run r =
      match slot r with
      | some i => (.ok i, r)
      | none =>
        match make.run.run r with
        | (.ok i, r') => (.ok i, keep i r')
        | (.error e, r') => (.error e, r') := by
  unfold remembered
  rw [run_get_bind]
  cases slot r with
  | some i => rfl
  | none =>
    dsimp only
    rw [run_bind]
    obtain ⟨e | i, r'⟩ := make.run.run r <;> rfl

theorem run_checkFields (n : String) (fields : Roster (Option TypeId)) :
    (checkFields n fields).run.run r =
      match fields.find? fun f => !r.isCopy f.2 with
      | some f => (.error (.nonCopyField n f.1), r)
      | none => (.ok (), r) := by
  induction fields with
  | nil => rfl
  | cons f fields ih =>
    unfold checkFields at ih ⊢
    rw [List.find?_cons, List.forM_cons, run_bind, run_get_bind]
    cases r.isCopy f.2 with
    | true => exact ih
    | false => rfl

end Running

/-! ## 2. The registry of a table -/

/-- The cached number of the type of a shape. -/
def built (r : Registry) : Shape → Option TypeId
  | .ref u i => r.refs (some i, u)
  | .array i => r.arrays (some i)
  | _ => none

/-- The registry is that of the table. -/
structure Mirrors (r : Registry) (t : TypeTable) : Prop where
  defs : ∀ i, r.defs i = t.def? i
  next : r.nextId = ((t.defs.length + 1 : Nat) : Int)
  names : ∀ n, r.byName n = t.lookup n
  /-- A cache holds for each built type the number under which the table lists it. -/
  built : ∀ s : Shape, s.isNamed = false → r.built s = t.findId? fun d => d.shape == s
  /-- Nothing is built on no type. -/
  bare : (∀ u, r.refs (none, u) = none) ∧ r.arrays none = none
  int : r.intId = t.intId
  bool : r.boolId = t.boolId
  unknown : r.unknownId = t.unknownId

end Registry

namespace TypeTable

/-- A search through a table with one more definition. -/
theorem findId?_push (t : TypeTable) (d : TypeDef) (p : TypeDef → Bool) :
    (t.push d).1.findId? p = (t.findId? p).or (if p d then some (t.push d).2 else none) := by
  unfold findId? push
  rw [List.findIdx?_append]
  cases t.defs.findIdx? p with
  | some n => rfl
  | none =>
    cases hp : p d <;> simp [List.findIdx?_cons, hp]

end TypeTable

namespace Registry

section Mirroring

variable {r : Registry} {t : TypeTable} {d : TypeDef}

theorem mirrors_empty : Mirrors {} {} where
  defs i := by
    cases h : TypeTable.def? {} i with
    | none => rfl
    | some d =>
      obtain ⟨n, _, hn⟩ := TypeTable.def?_eq_some.mp h
      cases hn
  next := rfl
  names _ := rfl
  built s _ := by cases s <;> rfl
  bare := ⟨fun _ => rfl, rfl⟩
  int := rfl
  bool := rfl
  unknown := rfl

theorem Mirrors.isCopy (h : r.Mirrors t) (id : Option TypeId) : r.isCopy id = t.isCopy id := by
  have hdefs : r.defs = t.def? := funext h.defs
  unfold Registry.isCopy
  rw [hdefs, Bool.eq_iff_iff, TypeTable.isCopy_iff]
  cases id.bind t.def? <;> simp

/-- Entering a definition on both sides. -/
theorem Mirrors.defs_push (h : r.Mirrors t) (named : Bool) (i : TypeId) :
    (r.entered d named).defs i = (t.push d).1.def? i := by
  have hpush : (t.push d).1.defs = t.defs ++ [d] := rfl
  ext e
  rw [TypeTable.def?_append hpush, ← h.next, ← h.defs]
  show rebind r.defs r.nextId d i = some e ↔ _
  rw [rebind]
  split_ifs with hi
  · have hnone : r.defs i = none := by
      rw [h.defs, Option.eq_none_iff_forall_ne_some]
      intro e he
      have hlt := TypeTable.lt_next he
      rw [← h.next, hi] at hlt
      exact absurd hlt (Int.lt_irrefl _)
    simp [hi, hi ▸ hnone, eq_comm]
  · simp [hi]

theorem Mirrors.lookup_push (h : r.Mirrors t) (hname : d.shape.isNamed = true)
    (hnew : t.lookup d.name = none) (n : String) :
    (r.entered d true).byName n = (t.push d).1.lookup n := by
  unfold TypeTable.lookup at hnew ⊢
  rw [TypeTable.findId?_push]
  show rebind r.byName d.name r.nextId n = _
  rw [rebind, hname, Bool.true_and]
  by_cases hn : n = d.name
  · subst hn
    rw [if_pos rfl, hnew, if_pos (beq_self_eq_true _), h.next]
    rfl
  · have hne : (d.name == n) = false := beq_eq_false_iff_ne.mpr (Ne.symm hn)
    rw [if_neg hn, hne, if_neg Bool.false_ne_true, Option.or_none]
    exact h.names n

/-- A definition under a name of its own: the caches stay. -/
theorem Mirrors.enter_named (h : r.Mirrors t) (hname : d.shape.isNamed = true)
    (hnew : t.lookup d.name = none) : (r.entered d true).Mirrors (t.push d).1 where
  defs := h.defs_push true
  next := by
    show r.nextId + 1 = ((t.defs ++ [d]).length + 1 : Nat)
    rw [h.next, List.length_append]
    rfl
  names := h.lookup_push hname hnew
  built s hs := by
    have hne : (d.shape == s) = false := by
      rw [beq_eq_false_iff_ne]
      rintro rfl
      cases hname.symm.trans hs
    rw [TypeTable.findId?_push, hne, if_neg Bool.false_ne_true, Option.or_none]
    exact (by cases s <;> rfl : (r.entered d true).built s = r.built s).trans (h.built s hs)
  bare := h.bare
  int := h.int
  bool := h.bool
  unknown := h.unknown

/-- A definition of a built type, which its cache then remembers. -/
theorem Mirrors.enter_built (h : r.Mirrors t) (hshape : d.shape.isNamed = false)
    (hnew : (t.findId? fun e => e.shape == d.shape) = none) {r' : Registry}
    (hkept : { r' with refs := r.refs, arrays := r.arrays } = r.entered d false)
    (hbuilt : ∀ s, r'.built s = if s = d.shape then some r.nextId else r.built s)
    (hbare : (∀ u, r'.refs (none, u) = none) ∧ r'.arrays none = none) : r'.Mirrors (t.push d).1 where
  defs i := by
    rw [← h.defs_push false, ← hkept]
  next := by
    have hnext : r'.nextId = r.nextId + 1 := congrArg Registry.nextId hkept
    show r'.nextId = ((t.defs ++ [d]).length + 1 : Nat)
    rw [hnext, h.next, List.length_append]
    rfl
  names n := by
    have hnames := congrArg Registry.byName hkept
    dsimp only at hnames
    unfold TypeTable.lookup
    rw [TypeTable.findId?_push, hshape, Bool.false_and, if_neg Bool.false_ne_true, Option.or_none, hnames]
    exact h.names n
  built s hs := by
    rw [hbuilt, TypeTable.findId?_push]
    by_cases hd : s = d.shape
    · subst hd
      rw [if_pos rfl, hnew, if_pos (beq_self_eq_true _), h.next]
      rfl
    · have hne : (d.shape == s) = false := beq_eq_false_iff_ne.mpr (Ne.symm hd)
      rw [if_neg hd, hne, if_neg Bool.false_ne_true, Option.or_none]
      exact h.built s hs
  bare := hbare
  int := (congrArg Registry.intId hkept).trans h.int
  bool := (congrArg Registry.boolId hkept).trans h.bool
  unknown := (congrArg Registry.unknownId hkept).trans h.unknown

/-! ## 3. Calls on both sides -/

/-- The registry's result is that of the table; a refused call leaves the registry `r` as it was. -/
def Follows (r : Registry) (x : Except TypeError TypeId × Registry) :
    Except TypeError (TypeTable × TypeId) → Prop
  | .ok (t', i) => x.1 = .ok i ∧ x.2.Mirrors t'
  | .error e => x = (.error e, r)

theorem Mirrors.follows_add (h : r.Mirrors t) (hname : d.shape.isNamed = true) :
    Follows r ((enter d true).run.run r) (t.add d) := by
  unfold TypeTable.add
  cases hl : t.lookup d.name with
  | some j =>
    have htaken : (r.byName d.name).isSome = true := by rw [h.names, hl]; rfl
    exact run_enter_taken htaken
  | none =>
    rw [run_enter fun _ => (h.names d.name).trans hl]
    exact ⟨congrArg Except.ok h.next, h.enter_named hname hl⟩

theorem Mirrors.follows_struct (h : r.Mirrors t) (n : String) (fields : Roster (Option TypeId))
    (copy : Bool) :
    Follows r ((enterStruct n fields copy).run.run r) (t.addStruct n fields copy) := by
  have hcopies : (fun f : String × Option TypeId => !t.isCopy f.2) = fun f => !r.isCopy f.2 :=
    funext fun f => by rw [h.isCopy]
  unfold enterStruct TypeTable.addStruct
  cases copy with
  | false => exact h.follows_add rfl
  | true =>
    dsimp only
    rw [if_pos rfl, if_pos rfl, run_bind, run_checkFields, hcopies]
    cases fields.find? fun f => !r.isCopy f.2 with
    | some f => exact rfl
    | none => exact h.follows_add rfl

/-- What is given on demand under a name. -/
theorem Mirrors.follows_give (h : r.Mirrors t) (hname : d.shape.isNamed = true)
    {slot : Registry → Option TypeId} {keep : TypeId → Registry → Registry} {known : Option TypeId}
    {remember : TypeTable → TypeId → TypeTable} (hslot : slot r = known)
    (hkeep : ∀ r' t' i, r'.Mirrors t' → (keep i r').Mirrors (remember t' i)) :
    Follows r ((remembered slot keep (enter d true)).run.run r) (t.give d known remember) := by
  rw [run_remembered, hslot]
  unfold TypeTable.give
  cases known with
  | some i => exact ⟨rfl, h⟩
  | none =>
    have hadd := h.follows_add hname
    cases ht : t.add d with
    | error e =>
      rw [ht] at hadd
      have hrun : (enter d true).run.run r = (.error e, r) := hadd
      simp only [hrun]
      exact rfl
    | ok x =>
      rw [ht] at hadd
      obtain ⟨hnumber, hmirrors⟩ := hadd
      revert hnumber hmirrors
      obtain ⟨y, r'⟩ := (enter d true).run.run r
      rintro rfl hmirrors
      exact ⟨rfl, hkeep r' x.1 x.2 hmirrors⟩

/-- What is built on a type. -/
theorem Mirrors.follows_built (h : r.Mirrors t) {slot : Registry → Option TypeId}
    {keep : TypeId → Registry → Registry} {shape : TypeId → Shape} {rename : String → String}
    {id : Option TypeId} (hnamed : ∀ j, (shape j).isNamed = false)
    (hslot : slot r = id.bind fun i => r.built (shape i))
    (hkeep : ∀ i e, id = some i → e.shape = shape i → (t.findId? fun e' => e'.shape == shape i) = none →
      (keep r.nextId (r.entered e false)).Mirrors (t.push e).1) :
    Follows r ((remembered slot keep (enterBuilt shape rename id)).run.run r)
      (t.ensureBuilt shape rename id) := by
  unfold enterBuilt TypeTable.ensureBuilt
  rw [run_remembered, hslot, run_bind, run_fetch]
  cases id with
  | none => exact rfl
  | some i =>
    simp only [Option.bind_some, h.built _ (hnamed i), h.defs]
    cases hfind : t.findId? fun d => d.shape == shape i with
    | some j => exact ⟨rfl, h⟩
    | none =>
      cases hd : t.def? i with
      | none =>
        simp only [TypeTable.get, Option.bind_some, hd]
        exact rfl
      | some d =>
        simp only [TypeTable.get, Option.bind_some, hd]
        rw [run_enter (by rintro ⟨⟩)]
        exact ⟨congrArg Except.ok h.next, hkeep i _ rfl rfl hfind⟩

/-- **A call gives the same on the registry and on the table it is that of.** -/
theorem Mirrors.call (h : r.Mirrors t) (c : TypeCall) : Follows r (r.call c) (t.call c) := by
  cases c with
  | scalar n => exact h.follows_add rfl
  | owned n => exact h.follows_add rfl
  | struct n fields copy =>
    exact h.follows_struct n fields copy
  | int =>
    rw [TypeTable.call_int]
    exact h.follows_give rfl h.int fun r' t' i h' => { h' with int := rfl }
  | bool =>
    rw [TypeTable.call_bool]
    exact h.follows_give rfl h.bool fun r' t' i h' => { h' with bool := rfl }
  | unknown =>
    rw [TypeTable.call_unknown]
    exact h.follows_give rfl h.unknown fun r' t' i h' => { h' with unknown := rfl }
  | ref u id =>
    refine h.follows_built (fun _ => rfl) ?_ fun i e hi he hnew => ?_
    · cases id with
      | none => exact h.bare.1 u
      | some i => rfl
    · subst hi
      refine h.enter_built (he ▸ rfl) (he ▸ hnew) rfl (fun s => ?_) ⟨fun v => ?_, h.bare.2⟩
      · rw [he]
        cases s <;> simp [Registry.built, entered, rebind, and_comm]
      · simp [rebind, entered, h.bare.1]
  | array id =>
    unfold TypeTable.call TypeTable.ensureArray
    refine h.follows_built (fun _ => rfl) ?_ fun i e hi he hnew => ?_
    · cases id with
      | none => exact h.bare.2
      | some i => rfl
    · subst hi
      refine h.enter_built (he ▸ rfl) (he ▸ hnew) rfl (fun s => ?_) ⟨h.bare.1, ?_⟩
      · rw [he]
        cases s <;> simp [Registry.built, entered, rebind]
      · simp [rebind, entered, h.bare.2]

variable {c : TypeCall} {i : TypeId} {e : TypeError} {r' : Registry}

theorem Mirrors.call_eq_ok (h : r.Mirrors t) (hcall : r.call c = (.ok i, r')) :
    ∃ t', t.call c = .ok (t', i) ∧ r'.Mirrors t' := by
  have hf := h.call c
  rw [hcall] at hf
  cases ht : t.call c with
  | error e =>
    rw [ht] at hf
    cases hf
  | ok x =>
    rw [ht] at hf
    obtain ⟨hi, hmirrors⟩ := hf
    cases hi
    exact ⟨x.1, rfl, hmirrors⟩

theorem Mirrors.call_eq_error (h : r.Mirrors t) :
    r.call c = (.error e, r') ↔ t.call c = .error e ∧ r' = r := by
  have hf := h.call c
  cases ht : t.call c with
  | error e' =>
    rw [ht] at hf
    rw [show r.call c = (.error e', r) from hf]
    simp [eq_comm]
  | ok x =>
    rw [ht] at hf
    constructor
    · intro hcall
      rw [hcall] at hf
      cases hf.1
    · rintro ⟨he, _⟩
      cases he

theorem Mirrors.after (h : r.Mirrors t) (c : TypeCall) : (r.after c).Mirrors (t.after c) := by
  unfold Registry.after
  cases hcall : r.call c with
  | mk x r' =>
    cases x with
    | ok i =>
      obtain ⟨t', ht, hmirrors⟩ := h.call_eq_ok hcall
      rw [TypeTable.after_of_ok ht]
      exact hmirrors
    | error e =>
      obtain ⟨ht, rfl⟩ := h.call_eq_error.mp hcall
      rw [TypeTable.after_of_error ht]
      exact h

/-- The registry behind a history of calls is that of the table behind it. -/
theorem Mirrors.afterAll (h : r.Mirrors t) (cs : List TypeCall) :
    (r.afterAll cs).Mirrors (t.afterAll cs) := by
  induction cs generalizing r t with
  | nil => exact h
  | cons c cs ih => exact ih (h.after c)

end Mirroring

/-! ## 4. Every history -/

/-- Why a call is refused: a field is in the way, a name is taken, or there is nothing to build on. -/
def Refuses (r : Registry) : TypeCall → TypeError → Prop
  | .scalar n, e | .owned n, e => (r.byName n).isSome = true ∧ e = .duplicateName n
  | .struct n fields copy, e =>
    (copy = true ∧ ∃ f, fields.find? (fun f => !r.isCopy f.2) = some f ∧ e = .nonCopyField n f.1) ∨
      ((copy = true → ∀ f ∈ fields, r.isCopy f.2 = true) ∧ (r.byName n).isSome = true ∧
        e = .duplicateName n)
  | .int, e => r.intId = none ∧ (r.byName "Int").isSome = true ∧ e = .duplicateName "Int"
  | .bool, e => r.boolId = none ∧ (r.byName "Bool").isSome = true ∧ e = .duplicateName "Bool"
  | .unknown, e =>
    r.unknownId = none ∧ (r.byName "Unknown").isSome = true ∧ e = .duplicateName "Unknown"
  | .ref _ id, e | .array id, e => id.bind r.defs = none ∧ e = .unknownId id

/-- A struct has a field of the type. -/
def FieldStep (r : Registry) (i j : Option TypeId) : Prop :=
  ∃ d fields copy n, i.bind r.defs = some d ∧ d.shape = .struct fields copy ∧ (n, j) ∈ fields

section Transfer

variable {r : Registry} {t : TypeTable} (h : r.Mirrors t)

include h

theorem Mirrors.defs_eq : r.defs = t.def? := funext h.defs

theorem Mirrors.refuses_iff (c : TypeCall) (e : TypeError) : r.Refuses c e ↔ t.Refuses c e := by
  cases c with
  | _ => simp only [Refuses, TypeTable.Refuses, h.names, h.isCopy, h.int, h.bool, h.unknown, h.defs_eq]

theorem Mirrors.fieldStep_iff (i j : Option TypeId) : r.FieldStep i j ↔ t.FieldStep i j := by
  simp only [FieldStep, TypeTable.FieldStep, h.defs_eq]

/-- What the caches hold. -/
theorem Mirrors.built_iff (hs : t.Sound) {s : Shape} (hnamed : s.isNamed = false) {j : TypeId} :
    r.built s = some j ↔ ∃ d, r.defs j = some d ∧ d.shape = s := by
  rw [h.built s hnamed, hs.findId?_shape_iff hnamed, h.defs_eq]

variable (hs : t.Sound)

include hs

theorem Mirrors.refs_iff {u : Bool} {id : Option TypeId} {j : TypeId} :
    r.refs (id, u) = some j ↔ ∃ i d, id = some i ∧ r.defs j = some d ∧ d.shape = .ref u i := by
  cases id with
  | none => simp [h.bare.1]
  | some i =>
    have hbuilt : r.refs (some i, u) = some j ↔ _ := h.built_iff hs (s := .ref u i) rfl
    simpa using hbuilt

theorem Mirrors.arrays_iff {id : Option TypeId} {j : TypeId} :
    r.arrays id = some j ↔ ∃ i d, id = some i ∧ r.defs j = some d ∧ d.shape = .array i := by
  cases id with
  | none => simp [h.bare.2]
  | some i =>
    have hbuilt : r.arrays (some i) = some j ↔ _ := h.built_iff hs (s := .array i) rfl
    simpa using hbuilt

/-- A field of a copy struct. -/
theorem Mirrors.field_of_copy {i : TypeId} {d : TypeDef} {fields : Roster (Option TypeId)}
    (hd : r.defs i = some d) (hshape : d.shape = .struct fields true) {f : String × Option TypeId}
    (hf : f ∈ fields) :
    ∃ j : Int, f.2 = some j ∧ (r.defs j).isSome = true ∧ j < i ∧ r.isCopy (some j) = true := by
  rw [h.defs] at hd
  obtain ⟨j, hj, hcopy, hlt⟩ := hs.copies i d fields hd hshape f hf
  obtain ⟨e, he, _⟩ := TypeTable.isCopy_iff.mp hcopy
  refine ⟨j, hj, ?_, hlt, (h.isCopy _).trans hcopy⟩
  rw [h.defs]
  exact Option.isSome_iff_exists.mpr ⟨e, he⟩

/-- Where fields lead from a copyable type. -/
theorem Mirrors.plain_of_fields {i j : Option TypeId} (hcopy : r.isCopy i = true)
    (hchain : Relation.ReflTransGen r.FieldStep i j) :
    ∃ d, j.bind r.defs = some d ∧ d.shape.isPlain = true := by
  have hlast : t.isCopy j = true := by
    induction hchain with
    | refl => exact (h.isCopy i).symm.trans hcopy
    | tail _ hnext ih => exact hs.isCopy_fieldStep ih ((h.fieldStep_iff _ _).mp hnext)
  rw [h.defs_eq]
  exact TypeTable.isCopy_iff.mp hlast

end Transfer

end Registry

/-- **Every history of calls keeps the registry consistent**, whatever was refused on the way. -/
theorem calls_keep_registry (cs : List TypeCall) :
    let r := Registry.afterAll {} cs
    -- the numbers given out are those from 1 on
    (∃ n : Nat, r.nextId = n + 1 ∧ ∀ i, (r.defs i).isSome = true ↔ 1 ≤ i ∧ i ≤ n) ∧
    -- no later call changes a definition
    (∀ more i d, r.defs i = some d → (r.afterAll more).defs i = some d) ∧
    -- a call gives what it asks for; it is refused for a reason only, and then leaves every part as it was
    (∀ c i r', r.call c = (.ok i, r') → ∃ d, r'.defs i = some d ∧ c.Asks d) ∧
    (∀ c e, (∃ r', r.call c = (.error e, r')) ↔ r.Refuses c e) ∧
    (∀ c e r', r.call c = (.error e, r') → r' = r) ∧
    -- named types are told apart by their names, and found by them
    (∀ i j d e, r.defs i = some d → r.defs j = some e → d.shape.isNamed = true →
      e.shape.isNamed = true → d.name = e.name → i = j) ∧
    (∀ n i, r.byName n = some i ↔ ∃ d, r.defs i = some d ∧ d.shape.isNamed = true ∧ d.name = n) ∧
    -- each cache holds the built types, by what they are built on
    (∀ u id j, r.refs (id, u) = some j ↔ ∃ i d, id = some i ∧ r.defs j = some d ∧ d.shape = .ref u i) ∧
    (∀ id j, r.arrays id = some j ↔ ∃ i d, id = some i ∧ r.defs j = some d ∧ d.shape = .array i) ∧
    -- the types remembered apart are what they are called
    (∀ i, r.intId = some i → r.defs i = some ⟨"Int", .scalar⟩) ∧
    (∀ i, r.boolId = some i → r.defs i = some ⟨"Bool", .scalar⟩) ∧
    (∀ i, r.unknownId = some i → r.defs i = some ⟨"Unknown", .unknown⟩) ∧
    -- two calls for built types give one number if they are the same call
    (∀ c i r₁, c.isBuilt = true → r.call c = (.ok i, r₁) → ∀ more c' j r₂, c'.isBuilt = true →
      (r₁.afterAll more).call c' = (.ok j, r₂) → (i = j ↔ c = c')) ∧
    -- the fields of a copy struct come before it and are copyable
    (∀ (i : Int) d fields, r.defs i = some d → d.shape = .struct fields true → ∀ f ∈ fields,
      ∃ j : Int, f.2 = some j ∧ (r.defs j).isSome = true ∧ j < i ∧ r.isCopy (some j) = true) ∧
    -- so fields lead from copyable types to copyable types only
    (∀ i j, r.isCopy i = true → Relation.ReflTransGen r.FieldStep i j →
      ∃ d, j.bind r.defs = some d ∧ d.shape ≠ .owned ∧ d.shape ≠ .unknown ∧ ∀ e, d.shape ≠ .array e) := by
  intro r
  have h : r.Mirrors (TypeTable.afterAll {} cs) := Registry.mirrors_empty.afterAll cs
  have hs : (TypeTable.afterAll {} cs).Sound := (TypeTable.Sound.empty.afterAll cs).1
  generalize TypeTable.afterAll {} cs = t at h hs
  refine ⟨⟨t.defs.length, h.next, fun i => ?_⟩, fun more i d hd => ?_, fun c i r' hcall => ?_,
    fun c e => ?_, fun c e r' hcall => (h.call_eq_error.mp hcall).2, ?_, fun n i => ?_,
    fun u id j => h.refs_iff hs, fun id j => h.arrays_iff hs, fun i hi => ?_, fun i hi => ?_, fun i hi => ?_,
    fun c i r₁ hb hcall more c' j r₂ hb' hcall' => ?_,
    fun i d fields hd hshape f hf => h.field_of_copy hs hd hshape hf, fun i j hcopy hchain => ?_⟩
  · rw [h.defs]
    exact TypeTable.contains_iff
  · rw [h.defs] at hd
    rw [(h.afterAll more).defs]
    exact TypeTable.def?_of_grown (hs.afterAll more).2 hd
  · obtain ⟨t', ht, hmirrors⟩ := h.call_eq_ok hcall
    obtain ⟨_, _, d, hd, hask⟩ := hs.call ht
    exact ⟨d, (hmirrors.defs i).trans hd, hask⟩
  · rw [h.refuses_iff, ← hs.refuses_iff]
    simp [h.call_eq_error]
  · rw [h.defs_eq]
    exact hs.names
  · rw [h.names, h.defs_eq]
    exact hs.lookup_iff
  · exact (h.defs i).trans (hs.given _ (.head _) i (h.int ▸ hi))
  · exact (h.defs i).trans (hs.given _ (.tail _ (.head _)) i (h.bool ▸ hi))
  · exact (h.defs i).trans (hs.given _ (.tail _ (.tail _ (.head _))) i (h.unknown ▸ hi))
  · obtain ⟨t₁, ht, h₁⟩ := h.call_eq_ok hcall
    obtain ⟨t₂, ht', _⟩ := (h₁.afterAll more).call_eq_ok hcall'
    exact hs.built_iff hb hb' ht more ht'
  · obtain ⟨d, hd, hplain⟩ := h.plain_of_fields hs hcopy hchain
    refine ⟨d, hd, fun hshape => ?_, fun hshape => ?_, fun e hshape => ?_⟩ <;>
      rw [hshape] at hplain <;> cases hplain

end Ownership
