import Ownership.Proofs.Source.Scope

/-!
# Which functions of a text are valid

A text that parses leaves little to validation. Names in a body are looked up but not refused: a name
without a declaration becomes a local variable, and a jump may go anywhere. Everything else that
validation asks for is true of every function that is built.

* `FunctionTree.Builds.looked`: the roots of the places of a body that is built are looked up;
* `Contents.Built`, `built_of_build`: what is true of everything that is built from trees;
* `parsed_valid_iff`: which functions of a text are valid.
-/

namespace Ownership

namespace Source

variable {types types' : TypeTable} {scope : Locals}

/-! ## 1. Bodies -/

section Bodies

variable {evaluate : Evaluation} (hn : ∀ e ∈ scope, e.2.root.name = e.1)

include hn

theorem name_rootOf (n : String) : (scope.rootOf n).name = n := by
  unfold Locals.rootOf
  cases hd : Roster.get? scope n with
  | none => rfl
  | some d => exact hn (n, d) (Roster.mem_of_get? hd)

theorem PlaceTree.looked_of_build {tree : PlaceTree} {p : Place} (h : tree.build scope = .ok p) :
    scope.Looked p := by
  obtain ⟨path, _, h⟩ := bind_eq_ok.mp h
  cases h
  have hname : (scope.rootOf tree.root.text).name = tree.root.text := name_rootOf hn _
  rw [Locals.Looked, Place.name, hname]

theorem OperandTree.looked_of_build {tree : OperandTree} {o : Operand}
    (h : tree.build evaluate scope = .ok o) :
    ∀ p ∈ o.place?.toList, scope.Looked p := by
  cases tree with
  | copy t =>
    obtain ⟨q, hq, rfl⟩ := map_eq_ok.mp h
    exact fun p hp => List.mem_singleton.mp hp ▸ t.looked_of_build hn hq
  | move t =>
    obtain ⟨q, hq, rfl⟩ := map_eq_ok.mp h
    exact fun p hp => List.mem_singleton.mp hp ▸ t.looked_of_build hn hq
  | ref k t =>
    obtain ⟨q, hq, h⟩ := bind_eq_ok.mp h
    cases h
    exact fun p hp => List.mem_singleton.mp hp ▸ t.looked_of_build hn hq
  | literal v =>
    obtain ⟨l, _, rfl⟩ := map_eq_ok.mp h
    exact fun p hp => absurd hp List.not_mem_nil

variable (evaluate) in
theorem looked_of_operands {os : List Operand}
    (h : ∀ o ∈ os, ∃ tree : OperandTree, tree.build evaluate scope = .ok o) :
    ∀ p ∈ os.filterMap Operand.place?, scope.Looked p := by
  intro p hp
  obtain ⟨o, ho, hop⟩ := List.mem_filterMap.mp hp
  obtain ⟨tree, ht⟩ := h o ho
  exact tree.looked_of_build hn ht p (Option.mem_toList.mpr hop)

theorem ValueTree.looked_of_build {tree : ValueTree} {v : Value} (h : tree.build evaluate scope = .ok v) :
    ∀ p ∈ v.places, scope.Looked p := by
  unfold ValueTree.build at h
  split at h
  · obtain ⟨l, _, rfl⟩ := map_eq_ok.mp h
    exact fun p hp => absurd hp List.not_mem_nil
  · rename_i t _
    obtain ⟨o, ho, rfl⟩ := map_eq_ok.mp h
    exact looked_of_operands evaluate hn fun o' ho' => List.mem_singleton.mp ho' ▸ ⟨t, ho⟩
  · rename_i t
    obtain ⟨q, hq, rfl⟩ := map_eq_ok.mp h
    exact fun p hp => List.mem_singleton.mp hp ▸ t.looked_of_build hn hq
  · cases h
    exact fun p hp => absurd hp List.not_mem_nil
  · obtain ⟨os, hos, rfl⟩ := map_eq_ok.mp h
    refine looked_of_operands evaluate hn fun o ho => ?_
    obtain ⟨t, _, ht⟩ := exists_of_forall₂ (forall₂_of_mapM hos) ho
    exact ⟨t, ht⟩
  · obtain ⟨fs, hfs, rfl⟩ := map_eq_ok.mp h
    refine looked_of_operands evaluate hn fun o ho => ?_
    obtain ⟨x, hx, rfl⟩ := List.mem_map.mp ho
    obtain ⟨t, _, ht⟩ := exists_of_forall₂ (forall₂_of_mapM hfs) hx
    obtain ⟨o, hbuild, he⟩ := bind_eq_ok.mp ht
    cases he
    exact ⟨t.2, hbuild⟩

theorem StatementTree.looked_of_build {tree : StatementTree} {s : Statement}
    (h : tree.build evaluate scope = .ok s) : ∀ p ∈ s.places, scope.Looked p := by
  cases tree with
  | assign d v =>
    obtain ⟨dest, hd, h⟩ := bind_eq_ok.mp h
    have hdest := d.looked_of_build hn hd
    split at h
    · obtain ⟨q, hq, h⟩ := bind_eq_ok.mp h
      cases h
      intro p hp
      rcases List.mem_cons.mp hp with rfl | hp
      · exact hdest
      · exact List.mem_singleton.mp hp ▸ PlaceTree.looked_of_build hn hq
    · obtain ⟨q, hq, h⟩ := bind_eq_ok.mp h
      cases h
      intro p hp
      rcases List.mem_cons.mp hp with rfl | hp
      · exact hdest
      · exact List.mem_singleton.mp hp ▸ PlaceTree.looked_of_build hn hq
    · obtain ⟨value, hv, h⟩ := bind_eq_ok.mp h
      cases h
      intro p hp
      simp only [Statement.places, List.append_nil] at hp
      rcases List.mem_append.mp hp with hp | hp
      · exact List.mem_singleton.mp hp ▸ hdest
      · exact ValueTree.looked_of_build hn hv p hp
  | drop t =>
    obtain ⟨q, hq, rfl⟩ := map_eq_ok.mp h
    exact fun p hp => List.mem_singleton.mp hp ▸ t.looked_of_build hn hq
  | eval v =>
    obtain ⟨value, hv, rfl⟩ := map_eq_ok.mp h
    intro p hp
    simp only [Statement.places, List.append_nil] at hp
    exact v.looked_of_build hn hv p hp

theorem TerminatorTree.looked_of_build {tree : TerminatorTree} {x : Terminator}
    (h : tree.build evaluate scope = .ok x) : ∀ p ∈ x.places, scope.Looked p := by
  cases tree with
  | goto l =>
    obtain ⟨t, _, rfl⟩ := map_eq_ok.mp h
    exact fun p hp => absurd hp List.not_mem_nil
  | branch c y n =>
    obtain ⟨o, ho, h⟩ := bind_eq_ok.mp h
    obtain ⟨_, _, h⟩ := bind_eq_ok.mp h
    obtain ⟨_, _, h⟩ := bind_eq_ok.mp h
    cases h
    exact c.looked_of_build hn ho
  | ret =>
    cases h
    exact fun p hp => absurd hp List.not_mem_nil
  | unreachable =>
    cases h
    exact fun p hp => absurd hp List.not_mem_nil

theorem BlockTree.looked_of_build {tree : BlockTree} {i : Nat} {b : Block}
    (h : tree.build evaluate scope i = .ok b) : ∀ p ∈ b.places, scope.Looked p := by
  obtain ⟨_, _, h⟩ := bind_eq_ok.mp h
  split_ifs at h
  · cases h
  · obtain ⟨ss, hss, h⟩ := bind_eq_ok.mp h
    obtain ⟨x, hx, h⟩ := bind_eq_ok.mp h
    cases h
    intro p hp
    rcases List.mem_append.mp hp with hp | hp
    · obtain ⟨s, hs, hp⟩ := List.mem_flatMap.mp hp
      obtain ⟨t, _, ht⟩ := exists_of_forall₂ (forall₂_of_mapM hss) hs
      exact t.looked_of_build hn ht p hp
    · exact tree.terminator.looked_of_build hn hx p hp

end Bodies

/-- **The places of a body that is built have the roots that their names stand for.** -/
theorem FunctionTree.Builds.looked {evaluate : Evaluation} {tree : FunctionTree} {f : Function}
    (h : tree.Builds evaluate types f) :
    ∀ p ∈ f.places, f.locals.Looked p := by
  intro p hp
  obtain ⟨b, hb, hp⟩ := List.mem_flatMap.mp hp
  obtain ⟨x, _, hx⟩ := exists_of_forall₂ h.blocks hb
  exact x.1.looked_of_build h.scope.named hx p hp

/-! ## 2. Texts -/

variable {evaluate : Evaluation}

theorem FunctionTree.Builds.extend {tree : FunctionTree} {f : Function}
    (h : tree.Builds evaluate types f) (ht : Extends types types') : tree.Builds evaluate types' f :=
  ⟨h.params, h.result, h.scope.extend ht, h.blocks⟩

/-- The table comes from calls only, and every function is built from a tree of the right shape. -/
structure Contents.Built (evaluate : Evaluation) (u : Contents) : Prop where
  sound : u.types.Sound
  functions : ∀ e ∈ u.functions, ∃ tree : FunctionTree, tree.Shaped ∧ tree.Builds evaluate u.types e.2

variable {u u' : Contents}

theorem Contents.Built.extend (h : u.Built evaluate) (ht : Extends u.types types) :
    Contents.Built evaluate { u with types := types } := by
  refine ⟨ht.sound, fun e he => ?_⟩
  obtain ⟨tree, hs, hb⟩ := h.functions e he
  exact ⟨tree, hs, hb.extend ht⟩

theorem Contents.Built.registered (h : u.Built evaluate) {name : Token} {c : TypeCall}
    (hr : registered name (u.types.call c) = .ok types) :
    Contents.Built evaluate { u with types := types } := by
  obtain ⟨_, hc⟩ := registered_eq_ok hr
  exact h.extend (Extends.of_call h.sound hc).1

theorem Item.built_of_build {item : Item} (h : u.Built evaluate) (hi : item.Shaped)
    (hb : item.build evaluate u = .ok u') : u'.Built evaluate := by
  cases item with
  | scalarType x =>
    obtain ⟨types, ht, hb⟩ := bind_eq_ok.mp hb
    cases hb
    exact h.registered (c := .scalar x.text) ht
  | ownedType x =>
    obtain ⟨types, ht, hb⟩ := bind_eq_ok.mp hb
    cases hb
    exact h.registered (c := .owned x.text) ht
  | struct copy x trees =>
    obtain ⟨y, hy, hb⟩ := bind_eq_ok.mp hb
    obtain ⟨types, ht, hb⟩ := bind_eq_ok.mp hb
    cases hb
    have hfields := h.extend (extends_of_buildFields h.sound hy)
    exact hfields.registered (c := .struct x.text y.2 copy) ht
  | function tree =>
    obtain ⟨⟨types, f⟩, hy, hb⟩ := bind_eq_ok.mp hb
    obtain ⟨ht, hbuild⟩ := tree.builds_of_build h.sound hy
    dsimp only at hb
    split_ifs at hb with hnew
    cases hb
    have hnone : Roster.get? u.functions f.name = none := by simpa using hnew
    refine ⟨ht.sound, fun e he => ?_⟩
    rw [Roster.put_of_get?_none hnone] at he
    rcases List.mem_append.mp he with he | he
    · exact (h.extend ht).functions e he
    · rw [List.mem_singleton.mp he]
      exact ⟨tree, hi, hbuild⟩

theorem built_of_foldlM {items : List Item} (h : u.Built evaluate) (hi : ∀ i ∈ items, i.Shaped)
    (hb : items.foldlM (Item.build evaluate) u = .ok u') : u'.Built evaluate := by
  induction items generalizing u with
  | nil =>
    cases hb
    exact h
  | cons item items ih =>
    rw [List.foldlM_cons] at hb
    obtain ⟨v, hv, hb⟩ := bind_eq_ok.mp hb
    exact ih (item.built_of_build h (hi item List.mem_cons_self) hv)
      (fun i hmem => hi i (List.mem_cons_of_mem _ hmem)) hb

theorem sound_of_startTypes (h : startTypes = .ok types) : types.Sound := by
  obtain ⟨x, hx, h⟩ := bind_eq_ok.mp h
  obtain ⟨y, hy, h⟩ := bind_eq_ok.mp h
  cases h
  obtain ⟨hint, _⟩ := Extends.of_call TypeTable.Sound.empty (c := .int) (onDemand_eq_ok.mp hx)
  exact (Extends.of_call hint.sound (c := .bool) (onDemand_eq_ok.mp hy)).1.sound

/-- **What is true of everything that is built**, from trees of the right shape. -/
theorem built_of_build {items : List Item} (hi : ∀ i ∈ items, i.Shaped)
    (h : build evaluate items = .ok u) : u.Built evaluate := by
  obtain ⟨types, htypes, h⟩ := bind_eq_ok.mp h
  have hstart : Contents.Built evaluate ⟨types, []⟩ :=
    ⟨sound_of_startTypes htypes, fun _ he => absurd he List.not_mem_nil⟩
  exact built_of_foldlM hstart hi h

/-- The trees that are read from a text have the right shape. -/
theorem exists_shaped_of_parse {text : String} (h : parse evaluate text = .ok u) :
    ∃ items, (∀ i ∈ items, Item.Shaped i) ∧ build evaluate items = .ok u := by
  obtain ⟨items, hitems, h⟩ := bind_eq_ok.mp h
  exact ⟨items, shaped_of_readAll hitems, h⟩

end Source

/-! ## 3. Valid functions -/

/-- Everything that the body of a function names is there. -/
structure Function.Resolved (f : Function) : Prop where
  /-- Roots and index variables are declared. -/
  declared : ∀ p ∈ f.places, ∀ n ∈ p.uses, (f.locals.get? n).isSome = true
  /-- Jumps go to blocks. -/
  jumps : f.JumpsInside
  /-- No aggregate sets a field twice. -/
  fields : f.FieldsOnce

/-- A place that was looked up is covered when its names are declared. -/
theorem Locals.Looked.covers_iff {ls : Locals} {p : Place} (h : ls.Looked p) :
    ls.Covers p ↔ ∀ n ∈ p.uses, (ls.get? n).isSome = true := by
  constructor
  · intro hc n hn
    rcases List.mem_cons.mp hn with rfl | hn
    · obtain ⟨d, hd, _⟩ := hc.root
      rw [hd]
      rfl
    · obtain ⟨d, hd⟩ := hc.vars n hn
      rw [hd]
      rfl
  · intro hn
    obtain ⟨d, hd⟩ := Option.isSome_iff_exists.mp (hn p.name List.mem_cons_self)
    refine ⟨⟨d, hd, ?_⟩, fun v hv => ?_⟩
    · rw [h, Locals.rootOf, hd]
      rfl
    · exact Option.isSome_iff_exists.mp (hn v (List.mem_cons_of_mem _ hv))

namespace Source

/-- **Which functions of a text are valid**: those that name nothing that is not there. Validation hands
    such a function out as it is. The contents may come from a text or from any trees of the right shape,
    and string literals may stand for anything. -/
theorem parsed_valid_iff {evaluate : Evaluation} {u : Contents}
    (h : (∃ text, parse evaluate text = .ok u) ∨
      ∃ items, (∀ i ∈ items, Item.Shaped i) ∧ build evaluate items = .ok u)
    {n : String} {f : Function} (hf : (n, f) ∈ u.functions) :
    ((∃ g, f.draft.validate u.types = .ok g) ↔ f.Resolved) ∧
      ∀ g, f.draft.validate u.types = .ok g → g = f := by
  obtain ⟨items, hitems, hbuild⟩ : ∃ items, (∀ i ∈ items, Item.Shaped i) ∧ build evaluate items = .ok u :=
    h.elim (fun ⟨_, h⟩ => exists_shaped_of_parse h) id
  obtain ⟨tree, hshaped, hbuilds⟩ := (built_of_build hitems hbuild).functions (n, f) hf
  have hclosed : f.Closed ↔ ∀ p ∈ f.places, ∀ n ∈ p.uses, (f.locals.get? n).isSome = true :=
    forall₂_congr fun p hp => (hbuilds.looked p hp).covers_iff
  refine ⟨⟨fun hg => ?_, fun hr => ?_⟩, fun g hg => (Function.validate_draft_iff.mp hg).1⟩
  · obtain ⟨g, hg⟩ := hg
    obtain ⟨_, _, hc, hj, hn⟩ := Function.validate_draft_iff.mp hg
    exact ⟨hclosed.mp hc, hj, hn⟩
  · refine ⟨f, Function.validate_draft_iff.mpr ⟨rfl, ?_, hclosed.mpr hr.declared, hr.jumps, hr.fields⟩⟩
    exact hbuilds.checkHead hshaped

/-- Two functions: one that reads an array at an index, and one that jumps to a block that it does not
    have. -/
def pickText : String :=
  "fn pick(a: [Int], i: Int) -> (p: Int) { bb0: { p = copy a[i]; return; } }
  fn astray() { bb0: { goto bb1; } }"

/-- The first of them. -/
def pick : Function where
  name := "pick"
  params := [⟨⟨.param, "a"⟩, []⟩, ⟨⟨.param, "i"⟩, []⟩]
  result := ⟨⟨.result, "p"⟩, []⟩
  locals := [("a", ⟨⟨.param, "a"⟩, some 3⟩), ("i", ⟨⟨.param, "i"⟩, some 1⟩),
    ("p", ⟨⟨.result, "p"⟩, some 1⟩)]
  blocks := [⟨[.assign ⟨⟨.result, "p"⟩, []⟩
    (.use (.copy ⟨⟨.param, "a"⟩, [Projection.element (some (.inr "i"))]⟩))], .ret⟩]

/-- The second. -/
def astray : Function where
  name := "astray"
  params := []
  result := ⟨⟨.result, "_ret"⟩, []⟩
  locals := [("_ret", ⟨⟨.result, "_ret"⟩, some 1⟩)]
  blocks := [⟨[], .goto 1⟩]

/-- No string literal stands for anything. -/
def noText : Evaluation := fun _ => .error .badLiteral

/-- Both functions are built; the first is valid, the second is not. -/
theorem parsed_valid_iff_pick : ∃ u, parse noText pickText = .ok u ∧
    u.functions = [("pick", pick), ("astray", astray)] ∧
    pick.draft.validate u.types = .ok pick ∧ ¬ ∃ g, astray.draft.validate u.types = .ok g := by
  have hread : (parse noText pickText).toOption.map Contents.functions =
      some [("pick", pick), ("astray", astray)] := by decide +kernel
  obtain ⟨u, hu, hfunctions⟩ := Option.map_eq_some_iff.mp hread
  have hparse : parse noText pickText = .ok u := by
    cases hp : parse noText pickText with
    | error e =>
      rw [hp] at hu
      cases hu
    | ok v =>
      rw [hp] at hu
      cases hu
      rfl
  have hpick : ("pick", pick) ∈ u.functions := hfunctions ▸ List.mem_cons_self
  have hastray : ("astray", astray) ∈ u.functions :=
    hfunctions ▸ List.mem_cons_of_mem _ List.mem_cons_self
  refine ⟨u, hparse, hfunctions, ?_, fun hg => ?_⟩
  · obtain ⟨hiff, hsame⟩ := parsed_valid_iff (Or.inl ⟨_, hparse⟩) hpick
    have hresolved : pick.Resolved := by
      refine ⟨by decide, ?_, ?_⟩
      · unfold Function.JumpsInside
        decide
      · unfold Function.FieldsOnce
        decide
    obtain ⟨g, hg⟩ := hiff.mpr hresolved
    rw [hg, hsame g hg]
  · have hjumps := ((parsed_valid_iff (Or.inl ⟨_, hparse⟩) hastray).1.mp hg).jumps
    exact absurd (hjumps _ List.mem_cons_self 1 List.mem_cons_self) (by decide)

end Source

end Ownership
