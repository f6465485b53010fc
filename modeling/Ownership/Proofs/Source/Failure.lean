import Ownership.Proofs.Source.Literal
import Ownership.Proofs.Source.Parsed

/-!
# Texts that fail without being refused

Most of what can be wrong with a text is refused at a position. What remains are parts that are handed
to someone else when the trees are built: numbers and labels, whose digits are counted, string literals,
and the type name `Unknown`, which the table of types gives on demand unless a type of that name was
declared before. A text in which none of these offends is built or refused; one in which some does is
never built, and nothing else fails in another way.

* `Part`, `Part.Offends`: those parts, and how they fail;
* `Answers`: what a builder answers, for the parts of the tree it builds;
* `Taken`, `Kept`: whether the name `Unknown` is taken, through every stage of building;
* `parse_failures`: how texts fail.
-/

namespace Ownership.Source

/-! ## 1. Parts that may offend -/

/-- A token that is handed to someone else. -/
inductive Part where
  | number (token : Token)
  | label (token : Token)
  | string (token : Token)
  | typeName (token : Token)

/-- The error that comes from a part, where `names` are the names of code points and `taken` says that
    a type named `Unknown` was declared. -/
def Part.Offends (names : CodeNames) (taken : Prop) : Part → Error → Prop
  | .number t, e => Text.digitLimit < t.text.length ∧ e = .tooManyDigits t.text.length
  | .label t, e => ∃ ds, t.text.toList = 'b' :: 'b' :: ds ∧ ds.all Char.isDigit = true ∧
      Text.digitLimit < ds.length ∧ e = .tooManyDigits ds.length
  | .string t, e => (Char.ofNat 0 ∈ innerText t.text ∧ e = .nullInLiteral) ∨
      (Char.ofNat 0 ∉ innerText t.text ∧ ¬ WellSpelled names (innerText t.text) ∧ e = .badLiteral)
  | .typeName t, e => t.text = "Unknown" ∧ taken ∧ e = .typeTaken (.duplicateName "Unknown")

def TypeTree.parts : TypeTree → List Part
  | .named t => [.typeName t]
  | .ref _ target => target.parts
  | .array element => element.parts

def StepTree.parts : StepTree → List Part
  | .position t => [.number t]
  | .field _ | .deref | .element _ | .anyElement => []

def PlaceTree.parts (p : PlaceTree) : List Part := p.steps.flatMap StepTree.parts

def LiteralTree.parts : LiteralTree → List Part
  | .number t => [.number t]
  | .bool _ => []
  | .string t => [.string t]

def OperandTree.parts : OperandTree → List Part
  | .copy p | .move p | .ref _ p => p.parts
  | .literal v => v.parts

def ValueTree.parts : ValueTree → List Part
  | .operand o => o.parts
  | .clone p => p.parts
  | .alloc _ => []
  | .call _ args => args.flatMap OperandTree.parts
  | .aggregate _ fields => fields.flatMap fun f => f.2.parts

def StatementTree.parts : StatementTree → List Part
  | .assign d v => d.parts ++ v.parts
  | .drop p => p.parts
  | .eval v => v.parts

def TerminatorTree.parts : TerminatorTree → List Part
  | .goto l => [.label l]
  | .branch c y n => c.parts ++ ([.label y] ++ [.label n])
  | .ret | .unreachable => []

def BlockTree.parts (b : BlockTree) : List Part :=
  [.label b.label] ++ (b.statements.flatMap StatementTree.parts ++ b.terminator.parts)

def ResultTree.parts : Option ResultTree → List Part
  | none => []
  | some (.anonymous ty) | some (.named _ ty) => ty.parts

def FunctionTree.parts (f : FunctionTree) : List Part :=
  f.params.flatMap (fun d => d.type.parts) ++ (ResultTree.parts f.result ++
    (f.locals.flatMap (fun d => d.type.parts) ++ f.blocks.flatMap BlockTree.parts))

def Item.parts : Item → List Part
  | .scalarType _ | .ownedType _ => []
  | .struct _ _ fields => fields.flatMap fun f => f.2.parts
  | .function f => f.parts

/-- The name of the type that an item declares. -/
def Item.typeName? : Item → Option String
  | .scalarType x | .ownedType x | .struct _ x _ => some x.text
  | .function _ => none

/-- The error comes from a part of one of the items; `taken` says that a type named `Unknown` was
    declared before them. -/
def Offending (names : CodeNames) (taken : Prop) : List Item → Error → Prop
  | [], _ => False
  | item :: items, e => (∃ x ∈ item.parts, x.Offends names taken e) ∨
      Offending names (taken ∨ item.typeName? = some "Unknown") items e

/-! ## 2. Answers -/

/-- What is built for the parts: something with the property, if none of them offends, and else a
    refusal or the error of one of them. -/
structure Answers {α : Type} (names : CodeNames) (taken : Prop) (ps : List Part) (r : Except Error α)
    (Q : α → Prop) : Prop where
  ok : ∀ a, r = .ok a → Q a ∧ ∀ x ∈ ps, ∀ e, ¬ x.Offends names taken e
  error : ∀ e, r = .error e → e.isRefusal = true ∨ ∃ x ∈ ps, x.Offends names taken e

namespace Answers

variable {α β : Type} {names : CodeNames} {taken : Prop} {ps qs : List Part} {r : Except Error α}
  {Q : α → Prop} {R : β → Prop}

theorem done {a : α} (h : Q a) : Answers names taken [] (.ok a) Q where
  ok b hb := by
    cases hb
    exact ⟨h, fun _ hx => absurd hx List.not_mem_nil⟩
  error e he := nomatch he

theorem refused (c : Cause) (p : Option Position) : Answers names taken ps (.error (.refused c p)) Q where
  ok a ha := nomatch ha
  error e he := by
    cases he
    exact Or.inl rfl

/-- A builder that fails exactly if its one part offends. -/
theorem single {x : Part} (h : ∀ e, r = .error e ↔ x.Offends names taken e) :
    Answers names taken [x] r fun _ => True where
  ok a ha := by
    refine ⟨trivial, fun y hy e he => ?_⟩
    cases List.mem_singleton.mp hy
    cases ha.symm.trans ((h e).mpr he)
  error e he := Or.inr ⟨x, List.mem_singleton_self x, (h e).mp he⟩

/-- A builder that always succeeds. -/
theorem always (h : ∀ e, r ≠ .error e) : Answers names taken [] r fun _ => True where
  ok _ _ := ⟨trivial, fun _ hx => absurd hx List.not_mem_nil⟩
  error e he := absurd he (h e)

/-- More is known of what is built. -/
theorem strengthen {Q' : α → Prop} (hr : Answers names taken ps r Q) (h : ∀ a, r = .ok a → Q' a) :
    Answers names taken ps r Q' :=
  ⟨fun a ha => ⟨h a ha, (hr.ok a ha).2⟩, hr.error⟩

theorem bind {k : α → Except Error β} (hr : Answers names taken ps r Q)
    (hk : ∀ a, Q a → Answers names taken qs (k a) R) : Answers names taken (ps ++ qs) (r >>= k) R where
  ok b hb := by
    obtain ⟨a, ha, hb⟩ := bind_eq_ok.mp hb
    obtain ⟨hq, hps⟩ := hr.ok a ha
    obtain ⟨hb, hqs⟩ := (hk a hq).ok b hb
    exact ⟨hb, fun x hx => (List.mem_append.mp hx).elim (hps x) (hqs x)⟩
  error e he := by
    cases hra : r with
    | error e' =>
      rw [hra] at he
      cases he
      refine (hr.error _ hra).imp_right fun h => ?_
      obtain ⟨x, hx, h⟩ := h
      exact ⟨x, List.mem_append_left _ hx, h⟩
    | ok a =>
      rw [hra] at he
      refine ((hk a (hr.ok a hra).1).error e he).imp_right fun h => ?_
      obtain ⟨x, hx, h⟩ := h
      exact ⟨x, List.mem_append_right _ hx, h⟩

/-- A builder without parts, and then another one. -/
theorem andThen {k : α → Except Error β} (hr : Answers names taken [] r Q)
    (hk : ∀ a, Q a → Answers names taken qs (k a) R) : Answers names taken qs (r >>= k) R :=
  hr.bind hk

/-- A builder, and then something without parts. -/
theorem finish {k : α → Except Error β} (hr : Answers names taken ps r Q)
    (hk : ∀ a, Q a → Answers names taken [] (k a) R) : Answers names taken ps (r >>= k) R :=
  List.append_nil ps ▸ hr.bind hk

theorem map {g : α → β} (hr : Answers names taken ps r Q) (hg : ∀ a, Q a → R (g a)) :
    Answers names taken ps (g <$> r) R := by
  have hmap : g <$> r = r >>= fun a => .ok (g a) := by cases r <;> rfl
  rw [hmap]
  exact hr.finish fun a ha => .done (hg a ha)

theorem mapM {γ : Type} {k : γ → Except Error α} {parts : γ → List Part}
    (hk : ∀ x, Answers names taken (parts x) (k x) fun _ => True) (xs : List γ) :
    Answers names taken (xs.flatMap parts) (xs.mapM k) fun _ => True := by
  induction xs with
  | nil => exact .done trivial
  | cons x xs ih =>
    rw [List.mapM_cons, List.flatMap_cons]
    exact (hk x).bind fun _ _ => ih.finish fun _ _ => .done trivial

end Answers

/-! ## 3. Bodies -/

section Bodies

variable {names : CodeNames} {taken : Prop} {scope : Locals}

theorem readDigits_eq_error {ds : List Char} {e : Error} :
    (Text.readDigits ds).mapError Error.tooManyDigits = .error e ↔
      Text.digitLimit < ds.length ∧ e = .tooManyDigits ds.length := by
  unfold Text.readDigits
  split_ifs with h
  · exact iff_of_false (fun he => nomatch he) fun he => absurd he.1 (Nat.not_lt.mpr h)
  · refine ⟨fun he => ?_, fun he => ?_⟩
    · cases he
      exact ⟨Nat.not_le.mp h, rfl⟩
    · rw [he.2]
      rfl

theorem readNumber_answers (t : Token) : Answers names taken [.number t] (readNumber t) fun _ => True := by
  refine .single fun e => readDigits_eq_error.trans ?_
  rw [String.length_toList]
  exact Iff.rfl

theorem blockNumber_answers (l : Token) : Answers names taken [.label l] (blockNumber l) fun _ => True := by
  unfold blockNumber
  split
  · rename_i d ds htext
    split_ifs with hdigits
    · refine .single fun e => readDigits_eq_error.trans ⟨fun h => ⟨_, htext, hdigits, h⟩, fun h => ?_⟩
      obtain ⟨ds', htext', _, h⟩ := h
      rw [htext] at htext'
      cases htext'
      exact h
    · exact .refused _ _
  · exact .refused _ _

theorem StepTree.answers (s : StepTree) : Answers names taken s.parts s.build fun _ => True := by
  cases s with
  | field t => exact .done trivial
  | deref => exact .done trivial
  | position t => exact (readNumber_answers t).finish fun _ _ => .done trivial
  | element t => exact .done trivial
  | anyElement => exact .done trivial

theorem PlaceTree.answers (p : PlaceTree) : Answers names taken p.parts (p.build scope) fun _ => True :=
  (Answers.mapM StepTree.answers p.steps).finish fun _ _ => .done trivial

theorem LiteralTree.answers (l : LiteralTree) :
    Answers names taken l.parts (l.build (evalString names)) fun _ => True := by
  cases l with
  | number t => exact (readNumber_answers t).finish fun _ _ => .done trivial
  | bool b => exact .done trivial
  | string t =>
    exact (Answers.single fun e => evalString_eq_error_iff).map fun _ _ => trivial

theorem OperandTree.answers (o : OperandTree) :
    Answers names taken o.parts (o.build (evalString names) scope) fun _ => True := by
  cases o with
  | copy p => exact p.answers.map fun _ _ => trivial
  | move p => exact p.answers.map fun _ _ => trivial
  | ref k p => exact p.answers.finish fun _ _ => .done trivial
  | literal v => exact v.answers.map fun _ _ => trivial

theorem ValueTree.answers (v : ValueTree) :
    Answers names taken v.parts (v.build (evalString names) scope) fun _ => True := by
  unfold ValueTree.build
  split
  · exact (LiteralTree.answers _).map fun _ _ => trivial
  · exact (OperandTree.answers _).map fun _ _ => trivial
  · exact (PlaceTree.answers _).map fun _ _ => trivial
  · exact .done trivial
  · exact (Answers.mapM OperandTree.answers _).map fun _ _ => trivial
  · refine (Answers.mapM (fun f => ?_) _).map fun _ _ => trivial
    exact f.2.answers.finish fun _ _ => .done trivial

theorem StatementTree.answers (s : StatementTree) :
    Answers names taken s.parts (s.build (evalString names) scope) fun _ => True := by
  cases s with
  | assign d v =>
    refine d.answers.bind fun dest _ => ?_
    split
    · exact (PlaceTree.answers _).finish fun _ _ => .done trivial
    · exact (PlaceTree.answers _).finish fun _ _ => .done trivial
    · exact v.answers.finish fun _ _ => .done trivial
  | drop p => exact p.answers.map fun _ _ => trivial
  | eval v => exact v.answers.map fun _ _ => trivial

theorem TerminatorTree.answers (t : TerminatorTree) :
    Answers names taken t.parts (t.build (evalString names) scope) fun _ => True := by
  cases t with
  | goto l => exact (blockNumber_answers l).map fun _ _ => trivial
  | branch c y n =>
    exact c.answers.bind fun _ _ => (blockNumber_answers y).bind fun _ _ =>
      (blockNumber_answers n).finish fun _ _ => .done trivial
  | ret => exact .done trivial
  | unreachable => exact .done trivial

theorem BlockTree.answers (b : BlockTree) (i : Nat) :
    Answers names taken b.parts (b.build (evalString names) scope i) fun _ => True := by
  refine (blockNumber_answers b.label).bind fun n _ => ?_
  split_ifs
  · exact .refused _ _
  · exact (Answers.mapM StatementTree.answers _).bind fun _ _ =>
      b.terminator.answers.finish fun _ _ => .done trivial

end Bodies

/-! ## 4. Types -/

section Types

variable {names : CodeNames} {taken : Prop} {types types' : TypeTable} {c : TypeCall} {i : TypeId}

/-- The name under which a call registers a type that is not given on demand. -/
def declared? : TypeCall → Option String
  | .scalar n | .owned n | .struct n _ _ => some n
  | .int | .bool | .unknown | .ref _ _ | .array _ => none

/-- The name `Unknown` belongs to a type that was declared. -/
def Taken (types : TypeTable) : Prop :=
  ∃ i d, types.def? i = some d ∧ d.name = "Unknown" ∧ d.shape.isNamed = true ∧ d.shape ≠ .unknown

/-- What is true of the table while a text is built: `Int` is there, and so is `Unknown` if it was given
    on demand. -/
structure Prepared (types : TypeTable) : Prop where
  sound : types.Sound
  int : types.intId.isSome = true
  unknown : ∀ i d, types.def? i = some d → d.shape = .unknown → types.unknownId.isSome = true

/-- A table that is prepared, and in which the name `Unknown` is taken or not. -/
structure Kept (taken : Prop) (types : TypeTable) : Prop where
  prepared : Prepared types
  taken : Taken types ↔ taken

/-- What was given on demand is remembered. -/
theorem remembers_of_enters {d : TypeDef} (h : types.Enters d types' i) :
    (types.intId.isSome = true → types'.intId.isSome = true) ∧
      (types.unknownId.isSome = true → types'.unknownId.isSome = true) := by
  constructor
  · intro hint
    rcases h.given (⟨"Int", .scalar⟩, types'.intId) (.head _) with hold | hnew
    · simp [TypeTable.given] at hold
      rw [hold]
      exact hint
    · rw [(Prod.mk.inj hnew).2]
      rfl
  · intro hunknown
    rcases h.given (⟨"Unknown", .unknown⟩, types'.unknownId) (.tail _ (.tail _ (.head _))) with hold | hnew
    · simp [TypeTable.given] at hold
      rw [hold]
      exact hunknown
    · rw [(Prod.mk.inj hnew).2]
      rfl

theorem unknownId_of_call (h : types.call .unknown = .ok (types', i)) :
    types'.unknownId.isSome = true := by
  rw [TypeTable.call_unknown] at h
  unfold TypeTable.give at h
  cases hid : types.unknownId with
  | some j =>
    rw [hid] at h
    cases h
    rw [hid]
    rfl
  | none =>
    rw [hid] at h
    obtain ⟨x, _, hx⟩ := map_eq_ok.mp h
    cases hx
    rfl

/-- The named types that calls ask for. -/
theorem asks_named {d : TypeDef} (h : c.Asks d) (hn : d.shape.isNamed = true) :
    (declared? c = some d.name ∧ d.shape ≠ .unknown) ∨ (c = .unknown ∧ d.shape = .unknown) ∨
      (d.name ≠ "Unknown" ∧ d.shape ≠ .unknown) := by
  cases c with
  | scalar n =>
    cases h
    exact Or.inl ⟨rfl, fun h => nomatch h⟩
  | owned n =>
    cases h
    exact Or.inl ⟨rfl, fun h => nomatch h⟩
  | struct n fields copy =>
    cases h
    exact Or.inl ⟨rfl, fun h => nomatch h⟩
  | int =>
    cases h
    exact Or.inr (Or.inr ⟨by decide, fun h => nomatch h⟩)
  | bool =>
    cases h
    exact Or.inr (Or.inr ⟨by decide, fun h => nomatch h⟩)
  | unknown =>
    cases h
    exact Or.inr (Or.inl ⟨rfl, rfl⟩)
  | ref u t =>
    obtain ⟨_, _, hshape⟩ := h
    rw [hshape] at hn
    cases hn
  | array t =>
    obtain ⟨_, _, hshape⟩ := h
    rw [hshape] at hn
    cases hn

/-- The types that are declared. -/
theorem asks_declared {d : TypeDef} {n : String} (h : c.Asks d) (hn : declared? c = some n) :
    d.name = n ∧ d.shape.isNamed = true ∧ d.shape ≠ .unknown := by
  cases c with
  | scalar m =>
    cases h
    exact ⟨Option.some.inj hn, rfl, fun h => nomatch h⟩
  | owned m =>
    cases h
    exact ⟨Option.some.inj hn, rfl, fun h => nomatch h⟩
  | struct m fields copy =>
    cases h
    exact ⟨Option.some.inj hn, rfl, fun h => nomatch h⟩
  | int => cases hn
  | bool => cases hn
  | unknown => cases hn
  | ref u t => cases hn
  | array t => cases hn

theorem Prepared.call (h : Prepared types) (hc : types.call c = .ok (types', i)) : Prepared types' := by
  rcases TypeTable.call_cases h.sound hc with ⟨rfl, _⟩ | ⟨d, hask, ha, he⟩
  · exact h
  · refine ⟨h.sound.enter ha he, (remembers_of_enters he).1 h.int, fun j e hj hshape => ?_⟩
    rcases (TypeTable.def?_append he.defs).mp hj with hj | ⟨_, rfl⟩
    · exact (remembers_of_enters he).2 (h.unknown j e hj hshape)
    · rcases asks_named hask (hshape ▸ rfl) with ⟨_, hne⟩ | ⟨rfl, _⟩ | ⟨_, hne⟩
      · exact absurd hshape hne
      · exact unknownId_of_call hc
      · exact absurd hshape hne

/-- A call takes the name if it declares it, and never gives it free. -/
theorem taken_call_iff (hs : types.Sound) (hc : types.call c = .ok (types', i)) :
    Taken types' ↔ Taken types ∨ declared? c = some "Unknown" := by
  obtain ⟨_, hgrown, d, hd, hask⟩ := hs.call hc
  constructor
  · intro h
    obtain ⟨j, e, hj, hname, hnamed, hne⟩ := h
    rcases TypeTable.call_cases hs hc with ⟨rfl, _⟩ | ⟨b, hask, _, he⟩
    · exact Or.inl ⟨j, e, hj, hname, hnamed, hne⟩
    · rcases (TypeTable.def?_append he.defs).mp hj with hj | ⟨_, rfl⟩
      · exact Or.inl ⟨j, e, hj, hname, hnamed, hne⟩
      · rcases asks_named hask hnamed with ⟨hdecl, _⟩ | ⟨_, hshape⟩ | ⟨hother, _⟩
        · exact Or.inr (hname ▸ hdecl)
        · exact absurd hshape hne
        · exact absurd hname hother
  · intro h
    rcases h with ⟨j, e, hj, h⟩ | hdecl
    · exact ⟨j, e, TypeTable.def?_of_grown hgrown hj, h⟩
    · exact ⟨i, d, hd, asks_declared hask hdecl⟩

theorem Kept.call (h : Kept taken types) (hc : types.call c = .ok (types', i)) :
    Kept (taken ∨ declared? c = some "Unknown") types' :=
  ⟨h.prepared.call hc, (taken_call_iff h.prepared.sound hc).trans (or_congr_left h.taken)⟩

theorem Kept.call_of_none (h : Kept taken types) (hd : declared? c = none)
    (hc : types.call c = .ok (types', i)) : Kept taken types' := by
  have hkept := h.call hc
  rw [hd] at hkept
  exact ⟨hkept.prepared, hkept.taken.trans (or_iff_left fun h => nomatch h)⟩

/-- The unknown type is refused exactly if its name is taken. -/
theorem Kept.refuses_unknown_iff (h : Kept taken types) {e : TypeError} :
    types.Refuses .unknown e ↔ taken ∧ e = .duplicateName "Unknown" := by
  rw [← h.taken, TypeTable.Refuses, ← and_assoc]
  refine and_congr_left fun _ => ⟨fun hr => ?_, fun ht => ?_⟩
  · obtain ⟨hid, hl⟩ := hr
    obtain ⟨j, hj⟩ := Option.isSome_iff_exists.mp hl
    obtain ⟨d, hd, hnamed, hname⟩ := TypeTable.def?_of_lookup hj
    refine ⟨j, d, hd, hname, hnamed, fun hshape => ?_⟩
    have hsome := h.prepared.unknown j d hd hshape
    rw [hid] at hsome
    cases hsome
  · obtain ⟨j, d, hd, hname, hnamed, hne⟩ := ht
    constructor
    · by_contra hid
      obtain ⟨k, hk⟩ := Option.ne_none_iff_exists'.mp hid
      have hgiven : types.def? k = some ⟨"Unknown", .unknown⟩ :=
        h.prepared.sound.given (⟨"Unknown", .unknown⟩, types.unknownId) (.tail _ (.tail _ (.head _))) k hk
      have hjk : j = k := h.prepared.sound.names j k d _ hd hgiven hnamed rfl hname
      rw [hjk, hgiven] at hd
      cases hd
      exact hne rfl
    · exact Option.isSome_iff_exists.mpr
        ⟨j, h.prepared.sound.lookup_iff.mpr ⟨d, hd, hnamed, hname⟩⟩

theorem onDemand_eq_error {r : Except TypeError (TypeTable × TypeId)} {e : Error} :
    onDemand r = .error e ↔ ∃ e', r = .error e' ∧ e = .typeTaken e' := by
  cases r with
  | ok x =>
    refine iff_of_false (fun h => nomatch h) fun h => ?_
    obtain ⟨_, h, _⟩ := h
    cases h
  | error e' =>
    constructor
    · intro h
      cases h
      exact ⟨e', rfl, rfl⟩
    · intro h
      obtain ⟨_, h, rfl⟩ := h
      cases h
      rfl

theorem Kept.onDemand (h : Kept taken types) (hd : declared? c = none) {x : TypeTable × TypeId}
    (hx : onDemand (types.call c) = .ok x) : Kept taken x.1 ∧ x.1.contains x.2 = true := by
  have hc : types.call c = .ok (x.1, x.2) := onDemand_eq_ok.mp hx
  exact ⟨h.call_of_none hd hc, (Extends.of_call h.prepared.sound hc).2⟩

/-- A type that is given on demand and never refused. -/
theorem Kept.answers (h : Kept taken types) (hd : declared? c = none)
    (hno : ∀ e, ¬ types.Refuses c e) :
    Answers names taken [] (Source.onDemand (types.call c)) fun x =>
      Kept taken x.1 ∧ x.1.contains x.2 = true := by
  refine (Answers.always fun e he => ?_).strengthen fun x hx => h.onDemand hd hx
  obtain ⟨e', he, _⟩ := onDemand_eq_error.mp he
  exact hno e' (h.prepared.sound.refuses_iff.mp he)

/-- **What comes of a type**: only the name `Unknown` may offend. -/
theorem TypeTree.answers (tree : TypeTree) (h : Kept taken types) :
    Answers names taken tree.parts (tree.build types) fun x =>
      Kept taken x.1 ∧ x.1.contains x.2 = true := by
  -- what a type is built on is in the table, so references and arrays are never refused
  have hbuilt : ∀ {x : TypeTable × TypeId}, x.1.contains x.2 = true →
      ¬ (some x.2).bind x.1.def? = none := by
    intro x hx hnone
    obtain ⟨d, hd⟩ := Option.isSome_iff_exists.mp hx
    cases hd.symm.trans hnone
  induction tree with
  | named t =>
    unfold TypeTree.build
    split_ifs with ht
    · refine (Answers.single fun e => onDemand_eq_error.trans ?_).strengthen
        fun x hx => h.onDemand (c := .unknown) rfl hx
      constructor
      · intro he
        obtain ⟨e', he, rfl⟩ := he
        have hrefuse := (h.prepared.sound.refuses_iff (c := .unknown)).mp he
        obtain ⟨htaken, rfl⟩ := h.refuses_unknown_iff.mp hrefuse
        exact ⟨ht, htaken, rfl⟩
      · intro he
        obtain ⟨_, htaken, rfl⟩ := he
        exact ⟨_, (h.prepared.sound.refuses_iff (c := .unknown)).mpr
          (h.refuses_unknown_iff.mpr ⟨htaken, rfl⟩), rfl⟩
    · split
      · rename_i i hi
        have hnone : ∀ e, (.ok (types, i) : Except Error (TypeTable × TypeId)) = .error e ↔
            (Part.typeName t).Offends names taken e :=
          fun e => iff_of_false (fun he => nomatch he) fun he => ht he.1
        refine (Answers.single hnone).strengthen fun x hx => ?_
        cases hx
        obtain ⟨d, hd, _⟩ := TypeTable.def?_of_lookup hi
        exact ⟨h, Option.isSome_iff_exists.mpr ⟨d, hd⟩⟩
      · exact .refused _ _
  | ref unique target ih =>
    exact ih.finish fun x hx =>
      hx.1.answers (c := .ref unique (some x.2)) rfl fun e he => hbuilt hx.2 he.1
  | array element ih =>
    exact ih.finish fun x hx =>
      hx.1.answers (c := .array (some x.2)) rfl fun e he => hbuilt hx.2 he.1

end Types

/-! ## 5. Declarations and items -/

section Items

variable {names : CodeNames} {taken : Prop} {types : TypeTable} {scope : Locals} {function : String}

theorem buildFields_answers (struct : String) (trees : List (Token × TypeTree))
    (fields : Roster (Option TypeId)) (h : Kept taken types) :
    Answers names taken (trees.flatMap fun f => f.2.parts) (buildFields struct trees types fields) fun x =>
      Kept taken x.1 := by
  induction trees generalizing types fields with
  | nil => exact .done h
  | cons e trees ih =>
    unfold buildFields
    split_ifs
    · exact .refused _ _
    · exact (e.2.answers h).bind fun x hx => ih _ hx.1

theorem declare_answers {kind : RootKind} {name : String} {pos : Option Position} {type : TypeTree}
    (h : Kept taken types) :
    Answers names taken type.parts (declare function kind name pos type types scope) fun x =>
      Kept taken x.1 := by
  unfold declare
  split_ifs
  · exact .refused _ _
  · exact (type.answers h).finish fun x hx => .done hx.1

theorem declareAll_answers (ds : List DeclTree) (h : Kept taken types) :
    Answers names taken (ds.flatMap fun d => d.type.parts) (declareAll function ds types scope) fun x =>
      Kept taken x.1 := by
  induction ds generalizing types scope with
  | nil => exact .done h
  | cons d ds ih => exact (declare_answers h).bind fun x hx => ih hx

theorem declareResult_answers (r : Option ResultTree) (h : Kept taken types) :
    Answers names taken (ResultTree.parts r) (declareResult function r types scope) fun x =>
      Kept taken x.1 := by
  unfold declareResult
  split
  · exact .done h
  · exact declare_answers h
  · exact declare_answers h

theorem defaultedResult_answers (f : FunctionTree) (h : Kept taken types) :
    Answers names taken [] (defaultedResult f types scope) fun x => Kept taken x.1 := by
  unfold defaultedResult
  split
  · exact .done h
  · split_ifs
    · exact .refused _ _
    · refine (h.answers (c := .int) rfl fun e he => ?_).finish fun x hx => .done hx.1
      have hint := h.prepared.int
      rw [he.1] at hint
      cases hint

theorem FunctionTree.answers (f : FunctionTree) (h : Kept taken types) :
    Answers names taken f.parts (f.build (evalString names) types) fun x => Kept taken x.1 := by
  refine (declareAll_answers f.params h).bind fun a ha => (declareResult_answers f.result ha).bind
    fun b hb => (declareAll_answers f.locals hb).bind fun c hc =>
      (defaultedResult_answers f hc).andThen fun d hd => ?_
  have hblocks : f.blocks.zipIdx.flatMap (fun x => x.1.parts) = f.blocks.flatMap BlockTree.parts := by
    rw [← List.flatMap_map, List.zipIdx_map_fst]
  rw [← hblocks]
  exact (Answers.mapM (fun x => x.1.answers x.2) _).finish fun _ _ => .done hd

theorem registered_answers {x : Token} {c : TypeCall} (h : Kept taken types) :
    Answers names taken [] (registered x (types.call c)) fun types' =>
      Kept (taken ∨ declared? c = some "Unknown") types' := by
  cases hc : types.call c with
  | error e => exact .refused _ _
  | ok y => exact .done (h.call hc)

/-- **What comes of an item.** -/
theorem Item.answers {u : Contents} (item : Item) (h : Kept taken u.types) :
    Answers names taken item.parts (item.build (evalString names) u) fun u' =>
      Kept (taken ∨ item.typeName? = some "Unknown") u'.types := by
  cases item with
  | scalarType x =>
    exact (registered_answers (c := .scalar x.text) h).finish fun _ ht => .done ht
  | ownedType x =>
    exact (registered_answers (c := .owned x.text) h).finish fun _ ht => .done ht
  | struct copy x fields =>
    exact (buildFields_answers _ _ _ h).finish fun y hy =>
      (registered_answers (c := .struct x.text y.2 copy) hy).finish fun _ ht => .done ht
  | function tree =>
    refine (tree.answers h).finish fun y hy => ?_
    dsimp only
    split_ifs
    · exact .refused _ _
    · exact .done ⟨hy.prepared, hy.taken.trans (or_iff_left fun h => nomatch h).symm⟩

/-- What comes of the items of a text, one after the other. -/
theorem foldlM_answers (items : List Item) {u : Contents} (h : Kept taken u.types) :
    (∀ u', items.foldlM (Item.build (evalString names)) u = .ok u' →
        ∀ e, ¬ Offending names taken items e) ∧
      ∀ e, items.foldlM (Item.build (evalString names)) u = .error e →
        e.isRefusal = true ∨ Offending names taken items e := by
  induction items generalizing taken u with
  | nil => exact ⟨fun _ _ _ he => he, fun e he => nomatch he⟩
  | cons item items ih =>
    rw [List.foldlM_cons]
    have hitem : Answers names taken item.parts _ _ := item.answers h
    cases hb : item.build (evalString names) u with
    | error e' =>
      refine ⟨fun _ hu => (nomatch hu), fun e he => ?_⟩
      cases he
      exact (hitem.error _ hb).imp_right Or.inl
    | ok v =>
      obtain ⟨hkept, hparts⟩ := hitem.ok v hb
      obtain ⟨hok, herror⟩ := ih hkept
      refine ⟨fun u' hu e he => ?_, fun e he => (herror e he).imp_right Or.inr⟩
      rcases he with ⟨x, hx, he⟩ | he
      · exact hparts x hx e he
      · exact hok u' hu e he

end Items

/-! ## 6. Texts -/

theorem kept_of_startTypes {types : TypeTable} (h : startTypes = .ok types) : Kept False types := by
  have hsound := sound_of_startTypes h
  cases h
  have hname : ∀ i d, ({ defs := [⟨"Int", .scalar⟩, ⟨"Bool", .scalar⟩] } : TypeTable).def? i = some d →
      d.name ≠ "Unknown" ∧ d.shape ≠ .unknown := by
    intro i d hd
    obtain ⟨n, _, hn⟩ := TypeTable.def?_eq_some.mp hd
    have hall : ∀ x ∈ [TypeDef.mk "Int" .scalar, ⟨"Bool", .scalar⟩],
        x.name ≠ "Unknown" ∧ x.shape ≠ .unknown := by decide
    exact hall d (List.mem_of_getElem? hn)
  refine ⟨⟨hsound, rfl, fun i d hd hshape => absurd hshape (hname i d hd).2⟩, ?_⟩
  refine iff_of_false (fun ht => ?_) id
  obtain ⟨i, d, hd, hunknown, _⟩ := ht
  exact (hname i d hd).1 hunknown

theorem Part.Offends.not_refusal {names : CodeNames} {taken : Prop} {x : Part} {e : Error}
    (h : x.Offends names taken e) : e.isRefusal = false := by
  cases x with
  | number t =>
    obtain ⟨_, rfl⟩ := h
    rfl
  | label t =>
    obtain ⟨_, _, _, _, rfl⟩ := h
    rfl
  | string t =>
    rcases h with ⟨_, rfl⟩ | ⟨_, _, rfl⟩
    · rfl
    · rfl
  | typeName t =>
    obtain ⟨_, _, rfl⟩ := h
    rfl

theorem Offending.not_refusal {names : CodeNames} {taken : Prop} {items : List Item} {e : Error}
    (h : Offending names taken items e) : e.isRefusal = false := by
  induction items generalizing taken with
  | nil => cases h
  | cons item items ih =>
    rcases h with ⟨x, _, h⟩ | h
    · exact h.not_refusal
    · exact ih h

/-- **How texts fail.** A text that is neither built nor refused was read to its end, and its error is
    that of a number or a label with too many digits, of a string literal with a null character or an
    escape that means nothing, or of the type name `Unknown` behind a declaration of that name. A text
    with such a part is never built. This holds whatever names code points have. -/
theorem parse_failures (names : CodeNames) (text : String) :
    (∀ e, parse (evalString names) text = .error e → (e.isRefusal = false ↔
      ∃ items, Item.readAll text = .ok items ∧ Offending names False items e)) ∧
    ∀ items e, Item.readAll text = .ok items → Offending names False items e →
      ∀ u, parse (evalString names) text ≠ .ok u := by
  obtain ⟨types, htypes⟩ : ∃ types, startTypes = .ok types := ⟨_, rfl⟩
  have hparse : parse (evalString names) text = (Item.readAll text >>= fun items =>
      items.foldlM (Item.build (evalString names)) ⟨types, []⟩) := by
    unfold parse build
    rw [htypes]
    rfl
  rw [hparse]
  cases hread : Item.readAll text with
  | error e' =>
    refine ⟨fun e he => ?_, fun items e hi => nomatch hi⟩
    cases he
    refine iff_of_false (fun h => ?_) fun h => ?_
    · cases h.symm.trans (refusal_of_readAll hread)
    · obtain ⟨_, h, _⟩ := h
      cases h
  | ok items =>
    obtain ⟨hok, herror⟩ := foldlM_answers items (u := ⟨types, []⟩) (kept_of_startTypes htypes)
    refine ⟨fun e he => ⟨fun hr => ⟨items, rfl, (herror e he).resolve_left ?_⟩, fun ho => ?_⟩,
      fun items' e hi ho u hu => ?_⟩
    · rw [hr]
      exact Bool.false_ne_true
    · obtain ⟨_, _, ho⟩ := ho
      exact ho.not_refusal
    · cases hi
      exact hok u hu e ho

/-- The answer is an error, and no refusal. -/
def fallsThrough (r : Except Error Contents) : Bool :=
  match r with
  | .error e => !e.isRefusal
  | .ok _ => false

theorem fallsThrough_iff {r : Except Error Contents} :
    fallsThrough r = true ↔ ∃ e, r = .error e ∧ e.isRefusal = false := by
  cases r with
  | ok u => simp [fallsThrough]
  | error e => simp [fallsThrough]

/-- A function that evaluates a literal. -/
def evalText (literal : String) : String :=
  "fn f() \x7b bb0: \x7b eval " ++ literal ++ "; return; \x7d \x7d"

/-- A type that takes the name, and a parameter whose type is not known. -/
def unknownText : String := "type Unknown = owned; fn f(x: Unknown) \x7b bb0: \x7b return; \x7d \x7d"

/-- An escape without its digits is found among the parts of the text. -/
theorem parse_failures_escape :
    ∃ e, parse (evalString bullet) (evalText "\"\\x\"") = .error e ∧ e.isRefusal = false ∧
      ∃ items, Item.readAll (evalText "\"\\x\"") = .ok items ∧ Offending bullet False items e := by
  obtain ⟨e, he, hr⟩ := fallsThrough_iff.mp
    (show fallsThrough (parse (evalString bullet) (evalText "\"\\x\"")) = true by decide +kernel)
  exact ⟨e, he, hr, ((parse_failures _ _).1 e he).mp hr⟩

/-- **Texts that fail without being refused**: an escape without its digits, a null character in a
    literal, and a type whose name is taken. -/
theorem parse_falls_through :
    (∃ e, parse (evalString bullet) (evalText "\"\\x\"") = .error e ∧ e.isRefusal = false) ∧
      (∃ e, parse (evalString bullet) (evalText "\"\x00\"") = .error e ∧ e.isRefusal = false) ∧
      ∃ e, parse (evalString bullet) unknownText = .error e ∧ e.isRefusal = false := by
  refine ⟨fallsThrough_iff.mp ?_, fallsThrough_iff.mp ?_, fallsThrough_iff.mp ?_⟩
  · decide +kernel
  · decide +kernel
  · decide +kernel

end Ownership.Source
