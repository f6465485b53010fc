import Ownership.Proofs.Collections
import Ownership.Proofs.Sketch.Reading

/-!
# Drafts as sketches

Every node of a draft is a thing, so a draft is a sketch (`Draft.sketch`). Validation does the same to
both: it hands out the same function, or it complains of the same fault, unless a number in the
complaint is too long to be written out (`Draft.validate_sketch`).

* `Node.thing`, `Draft.sketch`: a node as a thing, a draft as a sketch;
* `Thing.fullForm_thing`, `Thing.shown_thing`: how the things of nodes and of places are written out;
* `retold`: a check of a node, as a check of its thing tells it;
* `Draft.validate_sketch`: the statement for drafts.
-/

namespace Ownership

open Text (isShort)

/-! ## 1. Nodes as things -/

/-- A step as a thing. -/
def Projection.thing : Projection → Thing
  | .field name => .node .fieldStep [.ofText name]
  | .index i => .node .indexStep
      [.indexKind i.kind, .datum (i.value.elim .absent .int), i.var.elim (.datum .absent) .ofText]
  | .deref => .node .derefStep []

/-- A root as a thing. -/
def Root.thing (r : Root) : Thing := .node .root [.rootKind r.kind, .ofText r.name]

/-- The steps of a path as a thing. -/
def Path.thing (p : Path) : Thing := .tuple (p.map Projection.thing)

/-- A place as a thing. -/
def Place.thing (p : Place) : Thing := .node .place [p.root.thing, Path.thing p.path]

namespace Node

mutual

/-- A node as a thing. -/
def thing : Node → Thing
  | .literalNode v => .datum v
  | .kindNode k => .loanKind k
  | .placeNode p => p.thing
  | .copyOperand p => .node .copyOperand [thing p]
  | .moveOperand p => .node .moveOperand [thing p]
  | .refOperand p k => .node .refOperand [thing p, thing k]
  | .literalOperand v => .node .literalOperand [.datum v]
  | .constValue v => .node .constValue [.datum v]
  | .allocValue t => .node .allocValue [.ofText t]
  | .useValue o => .node .useValue [thing o]
  | .cloneValue p => .node .cloneValue [thing p]
  | .callValue f args => .node .callValue [.ofText f, .tuple (things args)]
  | .aggregateValue t fields => .node .aggregateValue [.ofText t, .tuple (fieldThings fields)]
  | .assignStatement d v => .node .assignStatement [thing d, thing v]
  | .borrowStatement d p k => .node .borrowStatement [thing d, thing p, thing k]
  | .moveStatement d p => .node .moveStatement [thing d, thing p]
  | .dropStatement p => .node .dropStatement [thing p]
  | .evalStatement v => .node .evalStatement [thing v]
  | .gotoTerminator t => .node .gotoTerminator [thing t]
  | .branchTerminator c y n => .node .branchTerminator [thing c, thing y, thing n]
  | .retTerminator => .node .retTerminator []
  | .unreachableTerminator => .node .unreachableTerminator []

/-- Nodes as things. -/
def things : List Node → List Thing
  | [] => []
  | n :: ns => thing n :: things ns

/-- The fields of an aggregate as pairs. -/
def fieldThings : List (String × Node) → List Thing
  | [] => []
  | (name, n) :: fs => .tuple [.ofText name, thing n] :: fieldThings fs

end

theorem things_eq (ns : List Node) : things ns = ns.map thing := by
  induction ns with
  | nil => rfl
  | cons n ns ih => rw [things, ih, List.map_cons]

theorem fieldThings_eq (fs : List (String × Node)) :
    fieldThings fs = fs.map fun f => .tuple [.ofText f.1, f.2.thing] := by
  induction fs with
  | nil => rfl
  | cons f fs ih => rw [fieldThings, ih, List.map_cons]

end Node

/-- A draft as a sketch. -/
def Draft.sketch (d : Draft) : Sketch :=
  { name := d.name, params := d.params, result := d.result, locals := d.locals,
    blocks := d.blocks.map fun b => ⟨b.statements.map Node.thing, b.terminator.thing⟩ }

/-! ## 2. Writing out -/

namespace Thing

theorem recordAll_eq (xs : List Thing) : recordAll xs = xs.map record := by
  induction xs with
  | nil => rfl
  | cons x xs ih => rw [recordAll, ih, List.map_cons]

theorem printsAll_eq (xs : List Thing) : printsAll xs = xs.all prints := by
  induction xs with
  | nil => rfl
  | cons x xs ih => rw [printsAll, ih, List.all_cons]

theorem record_step (s : Projection) : s.thing.record = s.record := by
  cases s with
  | field name => rfl
  | index i =>
    obtain ⟨kind, value, var⟩ := i
    cases value <;> cases var <;> rfl
  | deref => rfl

theorem prints_step (s : Projection) : s.thing.prints = s.prints := by
  cases s with
  | field name => rfl
  | index i =>
    obtain ⟨kind, value, var⟩ := i
    cases value <;> cases var <;> simp [Projection.thing, Projection.prints, prints, printsAll, ofText,
      Literal.prints]
  | deref => rfl

theorem record_place (p : Place) : p.thing.record = p.record := by
  have hpath : (Path.thing p.path).record = Path.record p.path := by
    rw [Path.thing, record, recordAll_eq, List.map_map, Path.record]
    exact congrArg Text.tuple (List.map_congr_left fun s _ => record_step s)
  show Text.record "Place" [("base", p.root.thing.record), ("projections", (Path.thing p.path).record)] = _
  rw [hpath]
  rfl

theorem prints_place (p : Place) : p.thing.prints = Path.prints p.path := by
  have hpath : (Path.thing p.path).prints = Path.prints p.path := by
    rw [Path.thing, prints, printsAll_eq, List.all_map, Path.prints]
    exact congrArg p.path.all (funext prints_step)
  show (p.root.thing.prints && ((Path.thing p.path).prints && true)) = _
  rw [hpath, Bool.and_true]
  rfl

mutual

theorem record_thing : ∀ n : Node, n.thing.record = n.record
  | .literalNode _ | .kindNode _ | .literalOperand _ | .constValue _ | .allocValue _
  | .retTerminator | .unreachableTerminator => rfl
  | .placeNode p => record_place p
  | .copyOperand n | .moveOperand n | .useValue n | .cloneValue n | .dropStatement n
  | .evalStatement n | .gotoTerminator n => by
    simp only [Node.thing, record, recordAll, Node.record, record_thing n, Form.layout,
      List.zip_cons_cons, List.zip_nil_right]
  | .refOperand n m | .assignStatement n m | .moveStatement n m => by
    simp only [Node.thing, record, recordAll, Node.record, record_thing n, record_thing m, Form.layout,
      List.zip_cons_cons, List.zip_nil_right]
  | .borrowStatement n m k | .branchTerminator n m k => by
    simp only [Node.thing, record, recordAll, Node.record, record_thing n, record_thing m,
      record_thing k, Form.layout, List.zip_cons_cons, List.zip_nil_right]
  | .callValue f args => by
    simp only [Node.thing, record, recordAll, Node.record, recordAll_things args, Form.layout,
      List.zip_cons_cons, List.zip_nil_right]
    rfl
  | .aggregateValue t fields => by
    simp only [Node.thing, record, recordAll, Node.record, recordAll_fields fields, Form.layout,
      List.zip_cons_cons, List.zip_nil_right]
    rfl

theorem recordAll_things : ∀ ns : List Node, recordAll (Node.things ns) = Node.recordAll ns
  | [] => rfl
  | n :: ns => by rw [Node.things, recordAll, Node.recordAll, record_thing n, recordAll_things ns]

theorem recordAll_fields : ∀ fs : List (String × Node),
    recordAll (Node.fieldThings fs) = Node.recordFields fs
  | [] => rfl
  | (name, n) :: fs => by
    rw [Node.fieldThings, recordAll, Node.recordFields, record, recordAll, recordAll, recordAll,
      record_thing n, recordAll_fields fs]
    rfl

end

mutual

theorem prints_thing : ∀ n : Node, n.thing.prints = n.prints
  | .literalNode _ | .kindNode _ | .allocValue _ | .retTerminator | .unreachableTerminator => rfl
  | .literalOperand v | .constValue v => by
    simp only [Node.thing, prints, printsAll, Node.prints, Bool.and_true]
  | .placeNode p => prints_place p
  | .copyOperand n | .moveOperand n | .useValue n | .cloneValue n | .dropStatement n
  | .evalStatement n | .gotoTerminator n => by
    simp only [Node.thing, prints, printsAll, Node.prints, prints_thing n, Bool.and_true]
  | .refOperand n m | .assignStatement n m | .moveStatement n m => by
    simp only [Node.thing, prints, printsAll, Node.prints, prints_thing n, prints_thing m, Bool.and_true]
  | .borrowStatement n m k | .branchTerminator n m k => by
    simp only [Node.thing, prints, printsAll, Node.prints, prints_thing n, prints_thing m,
      prints_thing k, Bool.and_true, Bool.and_assoc]
  | .callValue f args => by
    simp only [Node.thing, prints, printsAll, Node.prints, printsAll_things args, ofText, Literal.prints,
      Bool.and_true, Bool.true_and]
  | .aggregateValue t fields => by
    simp only [Node.thing, prints, printsAll, Node.prints, printsAll_fields fields, ofText, Literal.prints,
      Bool.and_true, Bool.true_and]

theorem printsAll_things : ∀ ns : List Node, printsAll (Node.things ns) = Node.printsAll ns
  | [] => rfl
  | n :: ns => by rw [Node.things, printsAll, Node.printsAll, prints_thing n, printsAll_things ns]

theorem printsAll_fields : ∀ fs : List (String × Node),
    printsAll (Node.fieldThings fs) = Node.printsFields fs
  | [] => rfl
  | (name, n) :: fs => by
    simp only [Node.fieldThings, printsAll, Node.printsFields, prints, ofText, Literal.prints,
      prints_thing n, printsAll_fields fs, Bool.and_true, Bool.true_and]

end

/-- The full form of a node's thing is that of the node. -/
theorem fullForm_thing (n : Node) :
    n.thing.fullForm = if n.prints then .ok n.record else .error .tooLong := by
  rw [fullForm, prints_thing, record_thing]

theorem shown_ofText (s : String) : shown (ofText s) = .ok s := by
  rw [ofText, shown, Text.plainText_codes]

/-- What is shown of an index. -/
theorem shown_index (i : Index) (out : String) (rest : List Thing) :
    shownSteps (.ok out) ((Projection.index i).thing :: rest) =
      if (Projection.index i).renders then shownSteps (.ok (out ++ "[" ++ i.render ++ "]")) rest
      else .error .tooLong := by
  obtain ⟨kind, value, var⟩ := i
  cases kind with
  | const =>
    cases value with
    | none => rfl
    | some n =>
      by_cases hn : isShort n = true
      · simp [Projection.thing, shownSteps, shown, fullForm, prints, record, Literal.prints,
          Literal.record, Projection.renders, Index.position?, Index.render, hn]
      · simp [Projection.thing, shownSteps, shown, fullForm, prints, Literal.prints,
          Projection.renders, Index.position?, hn]
        rfl
  | any =>
    cases var with
    | none => rfl
    | some v =>
      exact congrArg (fun r => r >>= fun inside => shownSteps (.ok (out ++ "[" ++ inside ++ "]")) rest)
        (shown_ofText v)

/-- The text of a path behind what is already shown. -/
theorem shownSteps_path (out : String) (path : Path) : shownSteps (.ok out) (path.map Projection.thing) =
    if path.all Projection.renders then .ok (Path.renderFrom out path) else .error .tooLong := by
  induction path generalizing out with
  | nil => rfl
  | cons s path ih =>
    rw [List.map_cons, List.all_cons]
    cases s with
    | field name =>
      rw [Projection.thing, shownSteps, shown_ofText]
      exact ih _
    | index i =>
      rw [shown_index, ih]
      cases (Projection.index i).renders <;> rfl
    | deref =>
      rw [Projection.thing, shownSteps]
      cases path with
      | nil => rfl
      | cons t path => exact ih _

theorem shown_thing (p : Place) : p.thing.shown = if p.renders then .ok p.render else .error .tooLong := by
  obtain ⟨root, path⟩ := p
  cases path with
  | nil => exact congrArg Except.ok (Text.plainText_codes root.name)
  | cons s path =>
    have hname : shownName root.thing = .ok root.name := by
      rw [Root.thing, shownName, shown_ofText]
    exact (congrArg (shownSteps · ((s :: path).map Projection.thing)) hname).trans (shownSteps_path _ _)

end Thing

/-! ## 3. Nodes validated as things -/

section Retold

variable {ε ε' α β γ : Type}

/-- What a check of a draft says, in the way of a sketch. -/
def retold (e : ε → ε') (x : Except ε α) : Except ε' (Option α) := (x.map some).mapError e

theorem retold_map (e : ε → ε') (x : Except ε α) (g : α → β) :
    (retold e x >>= fun o => .ok (o.map g)) = retold e (g <$> x) := by
  cases x <;> rfl

/-- A list of checks, each of them retold. -/
theorem mapM_retold {e : ε → ε'} {k : α → Except ε β} {k' : γ → Except ε' (Option β)} {g : α → γ}
    {xs : List α} (h : ∀ x ∈ xs, k' (g x) = retold e (k x)) :
    (xs.map g).mapM k' = ((xs.mapM k).map (List.map some)).mapError e := by
  induction xs with
  | nil => rfl
  | cons x xs ih =>
    have hx := h x List.mem_cons_self
    have hxs := ih fun y hy => h y (List.mem_cons_of_mem _ hy)
    rw [List.map_cons, List.mapM_cons, List.mapM_cons, hx, hxs]
    cases k x <;> cases xs.mapM k <;> rfl

/-- The same, with all that was read put together. -/
theorem mapM_retold_bind {e : ε → ε'} {k : α → Except ε β} {k' : γ → Except ε' (Option β)} {g : α → γ}
    {xs : List α} {δ : Type} (h : ∀ x ∈ xs, k' (g x) = retold e (k x)) (r : List β → δ) :
    ((xs.map g).mapM k' >>= fun os => .ok ((os.mapM id).map r)) = retold e (r <$> xs.mapM k) := by
  rw [mapM_retold h]
  cases xs.mapM k with
  | error e => rfl
  | ok ys => exact congrArg (fun o : Option (List β) => Except.ok (o.map r)) (mapM_id_map_some ys)

end Retold

/-- The fault of a node, as its thing is refused for it. -/
def Fault.mishap (f : Fault) : Mishap := if f.prints then .complaint f.message else .raised .tooLong

theorem complain_fullForm {α : Type} (n : Node) (text : String) :
    complain (α := α) (do let form ← n.thing.fullForm; return text ++ form) =
      .error (if n.prints then .complaint (text ++ n.record) else .raised .tooLong) := by
  rw [Thing.fullForm_thing]
  cases n.prints <;> rfl

namespace Thing

variable (ls : Locals)

theorem find_ofText (name : String) : ls.find (ofText name) = .ok (ls.get? name) := by
  have htext : (ofText name).text? = some name := text?_eq_some.mpr rfl
  show Except.ok ((ofText name).text?.bind (Roster.get? ls)) = _
  rw [htext]
  rfl

theorem isRoot_thing (r r' : Root) : r.thing.isRoot r' = (r' == r) := by
  obtain ⟨kind, name⟩ := r
  obtain ⟨kind', name'⟩ := r'
  rw [Bool.eq_iff_iff, beq_iff_eq, Root.mk.injEq]
  show (kind == kind' && Text.codes name == Text.codes name') = true ↔ _
  rw [Bool.and_eq_true, beq_iff_eq, beq_iff_eq, Text.codes_inj, eq_comm, @eq_comm _ name]

theorem filterMap_indexVar? (p : Place) :
    (p.path.map Projection.thing).filterMap indexVar? = p.indexVars.map ofText := by
  rw [List.filterMap_map, Place.indexVars, List.map_filterMap]
  refine List.filterMap_congr fun s _ => ?_
  cases s with
  | field name => rfl
  | index i =>
    obtain ⟨kind, value, var⟩ := i
    cases var <;> rfl
  | deref => rfl

theorem step?_thing (s : Projection) : s.thing.step? = some s := by
  cases s with
  | field name => exact congrArg (Option.map Projection.field) (text?_eq_some.mpr rfl)
  | index i =>
    obtain ⟨kind, value, var⟩ := i
    have hvar : (var.elim (.datum .absent) ofText).name? = some var := by
      cases var with
      | none => rfl
      | some v => exact congrArg (Option.map some) (text?_eq_some.mpr rfl)
    have hvalue : (Thing.datum (value.elim .absent .int)).number? = some value := by cases value <;> rfl
    simp only [Projection.thing, step?, hvar, hvalue]
    rfl
  | deref => rfl

theorem path?_thing (path : Path) : (Path.thing path).path? = some path := by
  induction path with
  | nil => rfl
  | cons s path ih =>
    have hpath : (path.map Projection.thing).mapM step? = some path := ih
    show (s.thing :: path.map Projection.thing).mapM step? = _
    rw [List.mapM_cons, step?_thing, hpath]
    rfl

theorem checkVar_thing (p : Place) (v : String) : checkVar ls p.root.thing (Path.thing p.path) (ofText v) =
    if (ls.get? v).isNone then .error (Fault.undeclaredIndex v p).mishap else .ok () := by
  have hshown : shown (.node .place [p.root.thing, Path.thing p.path]) = _ := shown_thing p
  rw [checkVar, find_ofText]
  cases ls.get? v with
  | some d => rfl
  | none =>
    show complain _ = _
    rw [shown_ofText, hshown, Fault.mishap, Fault.prints]
    cases p.renders <;> rfl

theorem forM_checkVar (p : Place) (vs : List String) :
    (vs.map ofText).forM (checkVar ls p.root.thing (Path.thing p.path)) =
      match vs.find? fun v => (ls.get? v).isNone with
      | some v => .error (Fault.undeclaredIndex v p).mishap
      | none => .ok () := by
  induction vs with
  | nil => rfl
  | cons v vs ih =>
    rw [List.map_cons, List.find?_cons]
    show (checkVar ls p.root.thing (Path.thing p.path) (ofText v) >>= fun _ =>
      (vs.map ofText).forM (checkVar ls p.root.thing (Path.thing p.path))) = _
    rw [checkVar_thing, ih]
    cases (ls.get? v).isNone <;> rfl

theorem mismatch_thing (p : Place) (k : RootKind) :
    mismatch p.root.thing (Path.thing p.path) (ofText p.name) k =
      if p.renders then .ok (Fault.kindMismatch p k).message else .error .tooLong := by
  have hshown : shown (.node .place [p.root.thing, Path.thing p.path]) = _ := shown_thing p
  have hkind : p.root.thing.part "kind" = .ok (.rootKind p.root.kind) := rfl
  have hlabel : (Thing.rootKind p.root.kind).part "name" = .ok (ofText p.root.kind.label) := rfl
  rw [mismatch, hshown]
  cases p.renders with
  | false => rfl
  | true =>
    simp only [if_true, ok_bind, hkind, hlabel, shown_ofText]
    rfl

theorem toPlace_place (p : Place) :
    p.thing.toPlace ls = retold Fault.mishap ((Node.placeNode p).toPlace ls) := by
  have hname : p.root.thing.part "name" = .ok (ofText p.name) := rfl
  have hitems : (Path.thing p.path).items = .ok (p.path.map Projection.thing) := rfl
  have hok : ∀ {α : Type} (a : α), attempt (.ok a) = .ok a := fun _ => rfl
  rw [Place.thing, toPlace, hname, hok, ok_bind, find_ofText, hok, ok_bind, Node.toPlace]
  cases ls.get? p.name with
  | none =>
    show complain _ = _
    rw [shown_ofText]
    rfl
  | some d =>
    dsimp only
    rw [isRoot_thing]
    cases hroot : d.root == p.root with
    | false =>
      show complain (mismatch _ _ _ _) = .error (Fault.kindMismatch p d.root.kind).mishap
      rw [mismatch_thing, Fault.mishap, Fault.prints]
      cases p.renders <;> rfl
    | true =>
      rw [beq_iff_eq] at hroot
      simp only [if_true, hitems, hok, ok_bind, filterMap_indexVar?, forM_checkVar, path?_thing,
        require, hroot]
      cases p.indexVars.find? fun v => (ls.get? v).isNone <;> rfl

theorem toPlace_thing (n : Node) : n.thing.toPlace ls = retold Fault.mishap (n.toPlace ls) := by
  have hunknown := complain_fullForm (α := Option Place) n "expected a place, got "
  cases n with
  | placeNode p => exact toPlace_place ls p
  | _ => exact hunknown

theorem toLoanKind_thing (n : Node) : n.thing.toLoanKind = n.toLoanKind.mapError Fault.mishap := by
  have hunknown := complain_fullForm (α := LoanKind) n "borrow kind must be a LoanKind, got "
  cases n with
  | kindNode k => rfl
  | _ => exact hunknown

theorem toOperand_thing (n : Node) : n.thing.toOperand ls = retold Fault.mishap (n.toOperand ls) := by
  have hunknown := complain_fullForm (α := Option Operand) n "unknown operand "
  cases n with
  | literalOperand v => rfl
  | copyOperand p =>
    rw [Node.thing, toOperand, toPlace_thing]
    exact retold_map _ _ _
  | moveOperand p =>
    rw [Node.thing, toOperand, toPlace_thing]
    exact retold_map _ _ _
  | refOperand p k =>
    rw [Node.thing, toOperand, toPlace_thing, toLoanKind_thing, Node.toOperand]
    cases k.toLoanKind <;> cases p.toPlace ls <;> rfl
  | _ => exact hunknown

/-- The names of fields are told apart as names are. -/
theorem allDistinct_ofText (names : List String) :
    allDistinct (names.map ofText) = decide names.Nodup := by
  have hsame : ∀ a b, same (ofText a) (ofText b) = true ↔ a = b := fun a b => by
    rw [← Text.codes_inj]
    simp [same, ofText, sameDatum, sameDatum.number]
  induction names with
  | nil => rfl
  | cons n names ih =>
    have hany : (names.map ofText).any (same (ofText n)) = decide (n ∈ names) := by
      rw [Bool.eq_iff_iff, decide_eq_true_iff, List.any_map, List.any_eq_true]
      simp [hsame]
    rw [List.map_cons, allDistinct, hany, ih]
    simp [List.nodup_cons]

/-- Names are fit for keys. -/
theorem forM_asKey (fields : List (String × Node)) :
    (fields.map fun f => (ofText f.1, f.2.thing)).forM (fun f => f.1.asKey) = .ok () := by
  induction fields with
  | nil => rfl
  | cons f fields ih => exact ih

theorem toField_thing (f : String × Node) : toField ls (ofText f.1, f.2.thing) =
    retold Fault.mishap ((f.1, ·) <$> f.2.toOperand ls) := by
  have htext : (ofText f.1).text? = some f.1 := text?_eq_some.mpr rfl
  rw [toField, toOperand_thing, htext]
  cases f.2.toOperand ls <;> rfl

theorem toValue_thing (n : Node) : n.thing.toValue ls = retold Fault.mishap (n.toValue ls) := by
  have hlabel : ∀ s, (ofText s).label = s := fun s => by
    rw [label, text?_eq_some.mpr rfl]
    rfl
  have hunknown := complain_fullForm (α := Option Value) n "unknown value expression "
  cases n with
  | constValue v => rfl
  | allocValue t =>
    show Except.ok (some (Value.alloc (ofText t).label)) = _
    rw [hlabel]
    rfl
  | useValue o =>
    rw [Node.thing, toValue, toOperand_thing]
    exact retold_map _ _ _
  | cloneValue p =>
    rw [Node.thing, toValue, toPlace_thing]
    exact retold_map _ _ _
  | callValue f args =>
    rw [Node.thing, Node.things_eq, Node.toValue]
    show ((args.map Node.thing).mapM (toOperand ls) >>= fun os =>
      .ok ((os.mapM id).map (Value.call (ofText f).label))) = _
    rw [hlabel]
    exact mapM_retold_bind (fun n _ => toOperand_thing ls n) _
  | aggregateValue t fields =>
    have hpairs : (fields.map fun f => Thing.tuple [ofText f.1, f.2.thing]).mapM pair =
        .ok (fields.map fun f => (ofText f.1, f.2.thing)) := mapM_map_ok fun _ _ => rfl
    have hnames : (fields.map fun f => (ofText f.1, f.2.thing)).map Prod.fst =
        (fields.map Prod.fst).map ofText := by
      rw [List.map_map, List.map_map]
      rfl
    have hok : ∀ {α : Type} (a : α), attempt (.ok a) = .ok a := fun _ => rfl
    rw [Node.thing, Node.fieldThings_eq, toValue, items, hok, ok_bind, hpairs, hok, ok_bind,
      forM_asKey, hok,
      ok_bind, hnames, allDistinct_ofText, Node.toValue, hlabel, shown_ofText, require]
    by_cases hnodup : (fields.map Prod.fst).Nodup
    · rw [if_pos (decide_eq_true hnodup), if_pos (decide_eq_true hnodup)]
      exact mapM_retold_bind (fun f _ => toField_thing ls f) _
    · rw [if_neg (by simpa using hnodup), if_neg (by simpa using hnodup)]
      rfl
  | _ => exact hunknown

theorem toStatement_thing (n : Node) :
    n.thing.toStatement ls = retold Fault.mishap (n.toStatement ls) := by
  have hunknown := complain_fullForm (α := Option Statement) n "unknown statement "
  cases n with
  | assignStatement d v =>
    rw [Node.thing, toStatement, toPlace_thing, toValue_thing, Node.toStatement]
    cases d.toPlace ls <;> cases v.toValue ls <;> rfl
  | borrowStatement d p k =>
    rw [Node.thing, toStatement, toLoanKind_thing, toPlace_thing, toPlace_thing, Node.toStatement]
    cases k.toLoanKind <;> cases d.toPlace ls <;> cases p.toPlace ls <;> rfl
  | moveStatement d p =>
    rw [Node.thing, toStatement, toPlace_thing, toPlace_thing, Node.toStatement]
    cases d.toPlace ls <;> cases p.toPlace ls <;> rfl
  | dropStatement p =>
    rw [Node.thing, toStatement, toPlace_thing]
    exact retold_map _ _ _
  | evalStatement v =>
    rw [Node.thing, toStatement, toValue_thing]
    exact retold_map _ _ _
  | _ => exact hunknown

theorem toTarget_thing (count : Nat) (n : Node) :
    n.thing.toTarget count = (n.toTarget count).mapError Fault.mishap := by
  have hunknown := complain_fullForm (α := Nat) n "terminator references nonexistent block "
  cases n with
  | literalNode v =>
    cases v with
    | int i =>
      cases i with
      | ofNat t =>
        by_cases ht : t < count
        · simp only [Node.thing, toTarget, Node.toTarget, if_pos ht]
          rfl
        · rw [Node.thing] at hunknown
          simp only [Node.thing, toTarget, Node.toTarget, if_neg ht, hunknown]
          rfl
      | negSucc t => exact hunknown
    | _ => exact hunknown
  | _ => exact hunknown

theorem toTerminator_thing (count b : Nat) (n : Node) :
    n.thing.toTerminator ls count b = retold Fault.mishap (n.toTerminator ls count b) := by
  have hunknown := complain_fullForm (α := Option Terminator) n "unknown terminator "
  cases n with
  | literalNode v =>
    cases v with
    | absent => rfl
    | _ => exact hunknown
  | gotoTerminator t =>
    rw [Node.thing, toTerminator, toTarget_thing, Node.toTerminator]
    cases t.toTarget count <;> rfl
  | branchTerminator c y n =>
    rw [Node.thing, toTerminator, toTarget_thing, toTarget_thing, toOperand_thing, Node.toTerminator]
    cases y.toTarget count <;> cases n.toTarget count <;> cases c.toOperand ls <;> rfl
  | retTerminator => rfl
  | unreachableTerminator => rfl
  | _ => exact hunknown

end Thing

/-! ## 4. Drafts validated as sketches -/

/-- A fault in the body of a draft, told of its sketch. -/
theorem located_retold {α : Type} (name : String) (pt : Point) (x : Except Fault α) :
    (retold Fault.mishap x).mapError (Mishap.located name pt) =
      retold Malformed.refusal (located name (some pt) x) := by
  cases x with
  | ok a => rfl
  | error f =>
    refine congrArg Except.error ?_
    show Mishap.located name pt f.mishap = Malformed.refusal ⟨name, some pt, f⟩
    rw [Fault.mishap, Malformed.refusal]
    cases f.prints <;> rfl

theorem block_retold (ss : Except Malformed (List Statement)) (t : Except Malformed Terminator) :
    (((ss.map (List.map some)).mapError Malformed.refusal >>= fun os =>
      retold Malformed.refusal t >>= fun ot => .ok (do return (⟨← os.mapM id, ← ot⟩ : Block))) :
        Except Refusal (Option Block)) =
      retold Malformed.refusal (do let ss ← ss; let t ← t; return ⟨ss, t⟩) := by
  cases ss with
  | error e => rfl
  | ok ss =>
    cases t with
    | error e => rfl
    | ok t =>
      exact congrArg (fun o : Option (List Statement) => Except.ok (o.bind fun ss => some (Block.mk ss t)))
        (mapM_id_map_some ss)

namespace Draft

variable (d : Draft)

theorem validateBlock_sketch (b : Nat) (block : DraftBlock) :
    d.sketch.validateBlock b ⟨block.statements.map Node.thing, block.terminator.thing⟩ =
      retold Malformed.refusal (d.validateBlock b block) := by
  have hzip : (block.statements.map Node.thing).zipIdx =
      block.statements.zipIdx.map fun x => (x.1.thing, x.2) := List.zipIdx_map ..
  have hbody : (block.statements.zipIdx.map fun x => (x.1.thing, x.2)).mapM
      (fun x => (x.1.toStatement d.locals).mapError (Mishap.located d.name ⟨b, x.2⟩)) =
      ((block.statements.zipIdx.mapM fun x => located d.name (some ⟨b, x.2⟩)
        (x.1.toStatement d.locals)).map (List.map some)).mapError Malformed.refusal := by
    refine mapM_retold fun x _ => ?_
    rw [Thing.toStatement_thing, located_retold]
  have hexit := located_retold d.name ⟨b, block.statements.length⟩
    (block.terminator.toTerminator d.locals d.blocks.length b)
  rw [← Thing.toTerminator_thing] at hexit
  have hblocks : d.sketch.blocks.length = d.blocks.length := List.length_map _
  rw [Sketch.validateBlock, validateBlock, hzip, hblocks, List.length_map]
  have htogether := congr (congrArg (fun (r : Except Refusal (List (Option Statement)))
    (t : Except Refusal (Option Terminator)) => r >>= fun os => t >>= fun ot =>
      Except.ok (do return (⟨← os.mapM id, ← ot⟩ : Block))) hbody) hexit
  exact htogether.trans (block_retold _ _)

/-- **Validation does the same to a draft and to its sketch.** -/
theorem validate_sketch (types : TypeTable) :
    d.sketch.validate types = retold Malformed.refusal (d.validate types) := by
  have hhead : d.sketch.head.checkHead types = d.checkHead types :=
    Sketch.checkHead_eq rfl rfl rfl (by rw [Sketch.head, sketch, List.length_map, List.length_map])
  have hzip : d.sketch.blocks.zipIdx = d.blocks.zipIdx.map fun x =>
      (⟨x.1.statements.map Node.thing, x.1.terminator.thing⟩, x.2) := List.zipIdx_map ..
  rw [Sketch.validate, validate, hhead, hzip]
  show ((located d.name none (d.checkHead types)).mapError Malformed.refusal >>= _) = _
  cases located d.name none (d.checkHead types) with
  | error m => rfl
  | ok u => exact mapM_retold_bind (fun x _ => validateBlock_sketch d x.2 x.1) _

end Draft

end Ownership
