import Ownership.Source.Build
import Ownership.Proofs.Accepted
import Ownership.Proofs.Source.Reader
import Ownership.Proofs.Types.Calls

/-!
# Declarations as they are built

Declarations are built in the order of the text: parameters, a return place whose type is given, locals,
and last the return place that is not given. Each registers what its type needs and refuses a name that
was declared before. So the roots of a function are known from its tree alone, each stands under its
own name with a registered type, and the head of the function is in order.

* `Extends`: the table of types grows by calls only;
* `Scoped`: declarations for a list of roots, through every stage of building;
* `FunctionTree.builds_of_build`, `FunctionTree.Builds.checkHead`: the head of every function that is built.
-/

namespace Ownership

namespace Roster

variable {α : Type} {r : Roster α} {k : String} {v : α}

/-- A name that is not there is added at the end. -/
theorem put_of_get?_none (h : r.get? k = none) : r.put k v = r ++ [(k, v)] := by
  induction r with
  | nil => rfl
  | cons e r ih =>
    obtain ⟨j, w⟩ := e
    rw [get?_cons] at h
    split_ifs at h with hk
    rw [put, if_neg fun e => hk e.symm, ih h]
    rfl

theorem get?_eq_none : r.get? k = none ↔ k ∉ r.names := by
  induction r with
  | nil => exact ⟨fun _ => List.not_mem_nil, fun _ => rfl⟩
  | cons e r ih =>
    obtain ⟨j, w⟩ := e
    rw [get?_cons, names, List.map_cons, List.mem_cons, not_or]
    by_cases hk : k = j
    · rw [if_pos hk]
      exact iff_of_false (Option.some_ne_none w) fun h => h.1 hk
    · rw [if_neg hk]
      exact ih.trans ⟨fun h => ⟨hk, h⟩, fun h => h.2⟩

theorem get?_of_mem (hd : r.names.Nodup) (h : (k, v) ∈ r) : r.get? k = some v := by
  induction r with
  | nil => cases h
  | cons e r ih =>
    obtain ⟨j, w⟩ := e
    rw [names, List.map_cons, List.nodup_cons] at hd
    rw [get?_cons]
    rcases List.mem_cons.mp h with he | h
    · cases he
      exact if_pos rfl
    · have hk : k ∈ r.map Prod.fst := List.mem_map_of_mem h
      have hne : k ≠ j := fun e => hd.1 (e ▸ hk)
      rw [if_neg hne]
      exact ih hd.2 h

theorem mem_of_get? (h : r.get? k = some v) : (k, v) ∈ r := by
  obtain ⟨before, after, rfl, _⟩ := List.lookup_eq_some_iff.mp h
  exact List.mem_append_right _ List.mem_cons_self

end Roster

namespace Source

/-! ## 1. Types -/

/-- The table grew, by calls only. -/
structure Extends (types types' : TypeTable) : Prop where
  sound : types'.Sound
  grown : types.defs <+: types'.defs

variable {types types' types'' : TypeTable} {i : TypeId}

theorem Extends.refl (hs : types.Sound) : Extends types types := ⟨hs, List.prefix_rfl⟩

theorem Extends.trans (h : Extends types types') (h' : Extends types' types'') : Extends types types'' :=
  ⟨h'.sound, h.grown.trans h'.grown⟩

theorem Extends.contains (h : Extends types types') {i : TypeId} (hi : types.contains i = true) :
    types'.contains i = true := by
  obtain ⟨d, hd⟩ := Option.isSome_iff_exists.mp hi
  exact Option.isSome_iff_exists.mpr ⟨d, TypeTable.def?_of_grown h.grown hd⟩

theorem Extends.of_call (hs : types.Sound) {c : TypeCall} (h : types.call c = .ok (types', i)) :
    Extends types types' ∧ types'.contains i = true := by
  obtain ⟨hsound, hgrown, d, hd, _⟩ := hs.call h
  exact ⟨⟨hsound, hgrown⟩, Option.isSome_iff_exists.mpr ⟨d, hd⟩⟩

theorem onDemand_eq_ok {r : Except TypeError (TypeTable × TypeId)} {x : TypeTable × TypeId} :
    onDemand r = .ok x ↔ r = .ok x := by
  cases r with
  | error e => exact ⟨fun h => absurd h (by rintro ⟨⟩), fun h => absurd h (by rintro ⟨⟩)⟩
  | ok y => exact ⟨fun h => congrArg _ (Except.ok.inj h), fun h => congrArg _ (Except.ok.inj h)⟩

theorem registered_eq_ok {name : Token} {r : Except TypeError (TypeTable × TypeId)}
    (h : registered name r = .ok types) : ∃ i, r = .ok (types, i) := by
  unfold registered at h
  split at h
  · cases h
    exact ⟨_, rfl⟩
  · cases h

/-- A type that is built is registered. -/
theorem TypeTree.extends_of_build {tree : TypeTree} (hs : types.Sound)
    (h : tree.build types = .ok (types', i)) : Extends types types' ∧ types'.contains i = true := by
  induction tree generalizing types types' i with
  | named t =>
    unfold TypeTree.build at h
    split at h
    · exact Extends.of_call hs (c := .unknown) (onDemand_eq_ok.mp h)
    · split at h
      · rename_i j hj
        cases h
        obtain ⟨d, hd, _⟩ := TypeTable.def?_of_lookup hj
        exact ⟨.refl hs, Option.isSome_iff_exists.mpr ⟨d, hd⟩⟩
      · cases h
  | ref unique target ih =>
    obtain ⟨x, hx, h⟩ := bind_eq_ok.mp h
    obtain ⟨hfirst, _⟩ := ih hs hx
    obtain ⟨hlast, hi⟩ :=
      Extends.of_call hfirst.sound (c := .ref unique (some x.2)) (onDemand_eq_ok.mp h)
    exact ⟨hfirst.trans hlast, hi⟩
  | array element ih =>
    obtain ⟨x, hx, h⟩ := bind_eq_ok.mp h
    obtain ⟨hfirst, _⟩ := ih hs hx
    obtain ⟨hlast, hi⟩ := Extends.of_call hfirst.sound (c := .array (some x.2)) (onDemand_eq_ok.mp h)
    exact ⟨hfirst.trans hlast, hi⟩

theorem extends_of_buildFields {struct : String} {trees : List (Token × TypeTree)}
    {fields : Roster (Option TypeId)} {x : TypeTable × Roster (Option TypeId)} (hs : types.Sound)
    (h : buildFields struct trees types fields = .ok x) : Extends types x.1 := by
  induction trees generalizing types fields with
  | nil =>
    cases h
    exact .refl hs
  | cons e trees ih =>
    unfold buildFields at h
    split_ifs at h
    · cases h
    · obtain ⟨y, hy, h⟩ := bind_eq_ok.mp h
      obtain ⟨hfirst, _⟩ := TypeTree.extends_of_build hs hy
      exact hfirst.trans (ih hfirst.sound h)

/-! ## 2. Declarations -/

/-- Declarations for the roots: each under its own name, once, with a registered type. -/
structure Scoped (types : TypeTable) (rs : List Root) (scope : Locals) : Prop where
  roots : scope.map (fun e => e.2.root) = rs
  named : ∀ e ∈ scope, e.2.root.name = e.1
  typed : ∀ e ∈ scope, ∃ i, e.2.type = some i ∧ types.contains i = true
  distinct : (Roster.names scope).Nodup

variable {rs : List Root} {scope scope' : Locals} {function : String}

theorem Scoped.nil (types : TypeTable) : Scoped types [] [] :=
  ⟨rfl, fun _ h => absurd h List.not_mem_nil, fun _ h => absurd h List.not_mem_nil, List.nodup_nil⟩

theorem Scoped.extend (h : Scoped types rs scope) (ht : Extends types types') :
    Scoped types' rs scope :=
  ⟨h.roots, h.named, fun e he => (h.typed e he).imp fun _ hi => ⟨hi.1, ht.contains hi.2⟩, h.distinct⟩

/-- A new name goes to the end. -/
theorem Scoped.put {kind : RootKind} {name : String} (h : Scoped types rs scope)
    (hnew : (Roster.get? scope name).isSome ≠ true) (hi : types.contains i = true) :
    Scoped types (rs ++ [⟨kind, name⟩]) (Roster.put name ⟨⟨kind, name⟩, some i⟩ scope) := by
  have hnone : Roster.get? scope name = none := by simpa using hnew
  rw [Roster.put_of_get?_none hnone]
  refine ⟨?_, fun e he => ?_, fun e he => ?_, ?_⟩
  · rw [List.map_append, h.roots]
    rfl
  · rcases List.mem_append.mp he with he | he
    · exact h.named e he
    · rw [List.mem_singleton.mp he]
  · rcases List.mem_append.mp he with he | he
    · exact h.typed e he
    · rw [List.mem_singleton.mp he]
      exact ⟨i, rfl, hi⟩
  · rw [Roster.names, List.map_append]
    refine List.nodup_append'.mpr ⟨h.distinct, List.nodup_singleton _, ?_⟩
    intro k hk hk'
    cases List.mem_singleton.mp hk'
    exact Roster.get?_eq_none.mp hnone hk

theorem scoped_of_declare {kind : RootKind} {name : String} {pos : Option Position} {type : TypeTree}
    (h : Scoped types rs scope) (hs : types.Sound)
    (hd : declare function kind name pos type types scope = .ok (types', scope')) :
    Extends types types' ∧ Scoped types' (rs ++ [⟨kind, name⟩]) scope' := by
  unfold declare at hd
  split_ifs at hd with hnew
  obtain ⟨x, hx, hd⟩ := bind_eq_ok.mp hd
  cases hd
  obtain ⟨ht, hi⟩ := TypeTree.extends_of_build hs hx
  exact ⟨ht, (h.extend ht).put hnew hi⟩

/-- The root that a declaration stands for. -/
def DeclTree.root (d : DeclTree) : Root := ⟨d.kind, d.name.text⟩

theorem scoped_of_declareAll {ds : List DeclTree} (h : Scoped types rs scope) (hs : types.Sound)
    (hd : declareAll function ds types scope = .ok (types', scope')) :
    Extends types types' ∧ Scoped types' (rs ++ ds.map DeclTree.root) scope' := by
  induction ds generalizing types scope rs with
  | nil =>
    cases hd
    exact ⟨.refl hs, by simpa using h⟩
  | cons d ds ih =>
    obtain ⟨x, hx, hd⟩ := bind_eq_ok.mp hd
    obtain ⟨hfirst, hscope⟩ := scoped_of_declare h hs hx
    obtain ⟨hlast, hall⟩ := ih hscope hfirst.sound hd
    refine ⟨hfirst.trans hlast, ?_⟩
    rwa [List.append_assoc] at hall

/-- The root of a return place whose type is given. -/
def ResultTree.given (r : Option ResultTree) : List Root := r.toList.map fun _ => ⟨.result, ResultTree.name r⟩

theorem scoped_of_declareResult {r : Option ResultTree} (h : Scoped types rs scope)
    (hs : types.Sound) (hd : declareResult function r types scope = .ok (types', scope')) :
    Extends types types' ∧ Scoped types' (rs ++ ResultTree.given r) scope' := by
  unfold declareResult at hd
  split at hd
  · cases hd
    exact ⟨.refl hs, by simpa [ResultTree.given] using h⟩
  · exact scoped_of_declare h hs hd
  · exact scoped_of_declare h hs hd

/-- The root of a return place whose type is not given. -/
def ResultTree.implied (r : Option ResultTree) : List Root :=
  if r.isSome then [] else [⟨.result, defaultResult⟩]

theorem scoped_of_defaultedResult {f : FunctionTree} (h : Scoped types rs scope)
    (hs : types.Sound) (hd : defaultedResult f types scope = .ok (types', scope')) :
    Extends types types' ∧ Scoped types' (rs ++ ResultTree.implied f.result) scope' := by
  unfold defaultedResult at hd
  split at hd
  · rename_i hr
    cases hd
    exact ⟨.refl hs, by simpa [ResultTree.implied, hr] using h⟩
  · rename_i hr
    split_ifs at hd with hnew
    · cases hd
    · obtain ⟨x, hx, hd⟩ := bind_eq_ok.mp hd
      cases hd
      obtain ⟨ht, hi⟩ := Extends.of_call hs (c := .int) (onDemand_eq_ok.mp hx)
      rw [ResultTree.implied, hr]
      exact ⟨ht, (h.extend ht).put hnew hi⟩

/-! ## 3. Functions -/

/-- The roots that a function declares, in order. -/
def FunctionTree.roots (f : FunctionTree) : List Root :=
  f.params.map DeclTree.root ++ ResultTree.given f.result ++ f.locals.map DeclTree.root ++
    ResultTree.implied f.result

/-- What a function is built from: declarations for its roots, and its blocks one by one. -/
structure FunctionTree.Builds (evaluate : Evaluation) (tree : FunctionTree) (types : TypeTable)
    (f : Function) : Prop where
  params : f.params = tree.params.map fun d => ⟨⟨.param, d.name.text⟩, []⟩
  result : f.result = ⟨⟨.result, ResultTree.name tree.result⟩, []⟩
  scope : Scoped types tree.roots f.locals
  blocks : List.Forall₂ (fun x b => BlockTree.build evaluate f.locals x.2 x.1 = .ok b) tree.blocks.zipIdx
    f.blocks

theorem FunctionTree.builds_of_build {evaluate : Evaluation} {tree : FunctionTree} {f : Function}
    (hs : types.Sound) (h : tree.build evaluate types = .ok (types', f)) :
    Extends types types' ∧ tree.Builds evaluate types' f := by
  obtain ⟨a, ha, h⟩ := bind_eq_ok.mp h
  obtain ⟨b, hb, h⟩ := bind_eq_ok.mp h
  obtain ⟨c, hc, h⟩ := bind_eq_ok.mp h
  obtain ⟨e, he, h⟩ := bind_eq_ok.mp h
  obtain ⟨blocks, hblocks, h⟩ := bind_eq_ok.mp h
  cases h
  obtain ⟨ta, sa⟩ := scoped_of_declareAll (.nil types) hs ha
  obtain ⟨tb, sb⟩ := scoped_of_declareResult sa ta.sound hb
  obtain ⟨tc, sc⟩ := scoped_of_declareAll sb tb.sound hc
  obtain ⟨te, se⟩ := scoped_of_defaultedResult sc tc.sound he
  exact ⟨((ta.trans tb).trans tc).trans te, rfl, rfl, se, forall₂_of_mapM hblocks⟩

section Head

variable {evaluate : Evaluation} {tree : FunctionTree} {f : Function}

/-- A root of a function is found under its name. -/
theorem Scoped.get?_of_mem (h : Scoped types rs scope) {r : Root} (hr : r ∈ rs) :
    ∃ d, Roster.get? scope r.name = some d ∧ d.root = r := by
  rw [← h.roots] at hr
  obtain ⟨e, he, rfl⟩ := List.mem_map.mp hr
  refine ⟨e.2, Roster.get?_of_mem h.distinct ?_, rfl⟩
  rw [h.named e he]
  exact he

theorem Scoped.names_eq (h : Scoped types rs scope) :
    Roster.names scope = rs.map Root.name := by
  rw [← h.roots, List.map_map]
  exact List.map_congr_left fun e he => (h.named e he).symm

theorem forM_ok {ε α : Type} {k : α → Except ε Unit} {xs : List α} (h : ∀ x ∈ xs, k x = .ok ()) :
    xs.forM k = .ok () := by
  induction xs with
  | nil => rfl
  | cons x xs ih =>
    exact bind_eq_ok.mpr ⟨(), h x List.mem_cons_self, ih fun y hy => h y (List.mem_cons_of_mem _ hy)⟩

/-- Whole parameters with names of their own, declared as such, are in order. -/
theorem checkParams_ok {ls : Locals} {ps : List Place} {seen : List String}
    (hwhole : ∀ p ∈ ps, p.isWhole = true) (hseen : ∀ p ∈ ps, p.name ∉ seen)
    (hnodup : (ps.map Place.name).Nodup)
    (hdecl : ∀ p ∈ ps, p.root.kind = .param ∧ ls.Declares p) : Draft.checkParams ls seen ps = .ok () := by
  induction ps generalizing seen with
  | nil => rfl
  | cons p ps ih =>
    rw [List.map_cons, List.nodup_cons] at hnodup
    obtain ⟨hkind, d, hd, hroot⟩ := hdecl p List.mem_cons_self
    have hone : seen.contains p.name = false := by simpa using hseen p List.mem_cons_self
    have hany : (ls.get? p.name).any (fun decl => decl.root == p.root && decl.root.kind == .param) = true := by
      rw [hd, Option.any_some, hroot, hkind]
      simp
    have hrest := @ih (p.name :: seen) (fun q hq => hwhole q (List.mem_cons_of_mem _ hq))
      (fun q hq => by
        rw [List.mem_cons, not_or]
        exact ⟨fun e => hnodup.1 (e ▸ List.mem_map_of_mem hq), hseen q (List.mem_cons_of_mem _ hq)⟩)
      hnodup.2 fun q hq => hdecl q (List.mem_cons_of_mem _ hq)
    refine bind_eq_ok.mpr ⟨(), require_eq_ok.mpr (hwhole p List.mem_cons_self), ?_⟩
    refine bind_eq_ok.mpr ⟨(), require_eq_ok.mpr (by rw [hone]; rfl), ?_⟩
    exact bind_eq_ok.mpr ⟨(), require_eq_ok.mpr hany, hrest⟩

/-- The return place is declared, whether its type is given or not. -/
theorem ResultTree.mem_roots (tree : FunctionTree) :
    (⟨.result, ResultTree.name tree.result⟩ : Root) ∈ tree.roots := by
  cases hr : tree.result with
  | none => simp [FunctionTree.roots, ResultTree.implied, hr, ResultTree.name]
  | some r => simp [FunctionTree.roots, ResultTree.given, hr]

/-- Only parameters are declared as such. -/
theorem FunctionTree.Shaped.mem_params (hs : tree.Shaped) {r : Root} (hr : r ∈ tree.roots)
    (hk : r.kind = .param) : r ∈ tree.params.map DeclTree.root := by
  rcases List.mem_append.mp hr with hr | hr
  · rcases List.mem_append.mp hr with hr | hr
    · rcases List.mem_append.mp hr with hr | hr
      · exact hr
      · obtain ⟨_, _, rfl⟩ := List.mem_map.mp hr
        cases hk
    · obtain ⟨d, hd, rfl⟩ := List.mem_map.mp hr
      exact absurd hk (hs.locals d hd)
  · unfold ResultTree.implied at hr
    split_ifs at hr
    · cases hr
    · cases List.mem_singleton.mp hr
      cases hk

/-- The parameters of a function that is built are the first of its roots. -/
theorem FunctionTree.Builds.params_eq (h : tree.Builds evaluate types f) (hs : tree.Shaped) :
    f.params = (tree.params.map DeclTree.root).map fun r => ⟨r, []⟩ := by
  rw [h.params, List.map_map]
  refine List.map_congr_left fun d hd => ?_
  rw [Function.comp_apply, DeclTree.root, hs.params d hd]

theorem FunctionTree.Builds.checkParams (h : tree.Builds evaluate types f) (hs : tree.Shaped) :
    Draft.checkParams f.locals [] f.params = .ok () := by
  have hmem : ∀ p ∈ f.params, ∃ d ∈ tree.params, p = ⟨d.root, []⟩ := by
    intro p hp
    rw [h.params_eq hs] at hp
    obtain ⟨_, hr, rfl⟩ := List.mem_map.mp hp
    obtain ⟨d, hd, rfl⟩ := List.mem_map.mp hr
    exact ⟨d, hd, rfl⟩
  refine checkParams_ok (fun p hp => ?_) (fun p _ => List.not_mem_nil) ?_ fun p hp => ?_
  · obtain ⟨d, _, rfl⟩ := hmem p hp
    rfl
  · -- the names of the parameters are the first of all names
    have hnames := h.scope.names_eq ▸ h.scope.distinct
    rw [FunctionTree.roots, List.map_append, List.map_append, List.map_append] at hnames
    have hfirst := (List.nodup_append'.mp (List.nodup_append'.mp (List.nodup_append'.mp hnames).1).1).1
    rw [h.params_eq hs, List.map_map]
    exact hfirst
  · obtain ⟨d, hd, rfl⟩ := hmem p hp
    refine ⟨hs.params d hd, h.scope.get?_of_mem ?_⟩
    simp only [FunctionTree.roots, List.append_assoc]
    exact List.mem_append_left _ (List.mem_map_of_mem hd)

/-- **The head of a function that is built is in order.** -/
theorem FunctionTree.Builds.checkHead (h : tree.Builds evaluate types f) (hs : tree.Shaped) :
    f.draft.checkHead types = .ok () := by
  have hblocks : f.draft.blocks.isEmpty = false := by
    have hlen := h.blocks.length_eq
    rw [List.length_zipIdx] at hlen
    rw [Function.draft, List.isEmpty_map]
    have hne : f.blocks ≠ [] := by
      rintro hnil
      rw [hnil, List.length_nil, List.length_eq_zero_iff] at hlen
      exact hs.blocks hlen
    simpa using hne
  have hlocals : f.draft.checkLocals types = .ok () := by
    refine forM_ok fun e he => bind_eq_ok.mpr ⟨(), require_eq_ok.mpr ?_, require_eq_ok.mpr ?_⟩
    · exact beq_iff_eq.mpr (h.scope.named e he)
    · obtain ⟨i, hi, hc⟩ := h.scope.typed e he
      rw [hi, Option.any_some]
      exact hc
  have hlisted : f.draft.checkListed = .ok () := by
    refine forM_ok fun e he => require_eq_ok.mpr ?_
    by_cases hk : e.2.root.kind = .param
    · have hroot : e.2.root ∈ tree.roots := h.scope.roots ▸ List.mem_map_of_mem he
      have hparam : e.2.root.name ∈ f.params.map Place.name := by
        rw [h.params_eq hs, List.map_map]
        exact List.mem_map_of_mem (hs.mem_params hroot hk)
      rw [h.scope.named e he] at hparam
      exact Bool.or_eq_true_iff.mpr (.inr (List.contains_iff_mem.mpr hparam))
    · exact Bool.or_eq_true_iff.mpr (.inl (bne_iff_ne.mpr hk))
  have hresult : f.draft.checkResult = .ok () := by
    obtain ⟨d, hd, hroot⟩ := h.scope.get?_of_mem (ResultTree.mem_roots tree)
    have hres : f.draft.result = ⟨⟨.result, ResultTree.name tree.result⟩, []⟩ := h.result
    refine bind_eq_ok.mpr ⟨(), require_eq_ok.mpr ?_, require_eq_ok.mpr ?_⟩
    · rw [hres]
      rfl
    · rw [hres]
      exact (Option.any_eq_true _ _).mpr ⟨d, hd, beq_iff_eq.mpr hroot⟩
  refine bind_eq_ok.mpr ⟨(), require_eq_ok.mpr (by rw [hblocks]; rfl), ?_⟩
  refine bind_eq_ok.mpr ⟨(), hlocals, bind_eq_ok.mpr ⟨(), h.checkParams hs, ?_⟩⟩
  exact bind_eq_ok.mpr ⟨(), hlisted, hresult⟩

end Head

end Source

end Ownership
