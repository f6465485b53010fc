import Mathlib.Data.List.Forall2
import Ownership.Function.Validation
import Ownership.Liveness.Uses

/-!
# What validation reads and promises

Validation reads a draft and changes nothing: the draft it accepts is the draft of the function it
hands out. Every place in the body of that function is covered by the declarations, that is, its root
and the variables of its indices are declared; every jump goes to a block, and there is a block to
start from. The lemmas read the success of one check after the other, each of them once
(`toPlace_eq_ok` to `Draft.validateBlock_eq_ok`).

* `Function.places`: the places that the statements and terminators of a body mention;
* `Locals.Covers`: the root of a place and the variables of its indices are declared;
* `Locals.Looked`: the root of a place is what its name is declared as;
* `Function.Closed`: every place in the body is covered;
* `Function.WellFormed`: what the graph and the passes rely on;
* `Draft.eq_draft_of_validate`, `Draft.closed_of_validate`, `Draft.wellFormed_of_validate`.
-/

namespace Ownership

/-! ## 1. Checks that succeed -/

section Success

variable {ε α β : Type}

theorem bind_eq_ok {x : Except ε α} {k : α → Except ε β} {b : β} :
    x >>= k = .ok b ↔ ∃ a, x = .ok a ∧ k a = .ok b := by
  cases x with
  | error e => exact ⟨fun h => (nomatch h), fun ⟨_, h, _⟩ => (nomatch h)⟩
  | ok a => exact ⟨fun h => ⟨a, rfl, h⟩, fun ⟨_, h, hk⟩ => by cases h; exact hk⟩

theorem map_eq_ok {x : Except ε α} {k : α → β} {b : β} :
    k <$> x = .ok b ↔ ∃ a, x = .ok a ∧ k a = b := by
  cases x with
  | error e => exact ⟨fun h => (nomatch h), fun ⟨_, h, _⟩ => (nomatch h)⟩
  | ok a => exact ⟨fun h => ⟨a, rfl, Except.ok.inj h⟩, fun ⟨_, h, hk⟩ => by cases h; rw [← hk]; rfl⟩

/-- A list of checks succeeds element by element. -/
theorem forall₂_of_mapM {xs : List α} {k : α → Except ε β} {ys : List β} (h : xs.mapM k = .ok ys) :
    List.Forall₂ (fun x y => k x = .ok y) xs ys := by
  induction xs generalizing ys with
  | nil =>
    rw [List.mapM_nil] at h
    cases h
    exact .nil
  | cons x xs ih =>
    rw [List.mapM_cons] at h
    obtain ⟨y, hy, h⟩ := bind_eq_ok.mp h
    obtain ⟨zs, hzs, h⟩ := bind_eq_ok.mp h
    cases h
    exact .cons hy (ih hzs)

theorem exists_of_forall₂ {R : α → β → Prop} {xs : List α} {ys : List β} (h : List.Forall₂ R xs ys)
    {y : β} (hy : y ∈ ys) : ∃ x ∈ xs, R x y := by
  induction h with
  | nil => cases hy
  | cons hxy _ ih =>
    rcases List.mem_cons.mp hy with rfl | hy
    · exact ⟨_, List.mem_cons_self, hxy⟩
    · obtain ⟨x, hx, hxy⟩ := ih hy
      exact ⟨x, List.mem_cons_of_mem _ hx, hxy⟩

theorem ok_of_forM {xs : List α} {k : α → Except ε Unit} {u : Unit} (h : xs.forM k = .ok u) :
    ∀ x ∈ xs, k x = .ok u := by
  induction xs with
  | nil => exact fun x hx => absurd hx List.not_mem_nil
  | cons y ys ih =>
    obtain ⟨_, hy, hys⟩ := bind_eq_ok.mp h
    intro x hx
    rcases List.mem_cons.mp hx with rfl | hx
    · exact hy
    · exact ih hys x hx

theorem require_eq_ok {c : Bool} {fault : Fault} {u : Unit} :
    require c fault = .ok u ↔ c = true := by
  cases c with
  | false => exact ⟨fun h => (nomatch h), fun h => (nomatch h)⟩
  | true => exact ⟨fun _ => rfl, fun _ => rfl⟩

theorem located_eq_ok {name : String} {pt : Option Point} {x : Except Fault α} {a : α} :
    located name pt x = .ok a ↔ x = .ok a := by
  cases x with
  | error e => exact ⟨fun h => (nomatch h), fun h => (nomatch h)⟩
  | ok b => exact ⟨fun h => congrArg _ (Except.ok.inj h), fun h => congrArg _ (Except.ok.inj h)⟩

end Success

/-! ## 2. Places of a body -/

/-- The places a statement mentions. -/
def Statement.places (s : Statement) : List Place :=
  s.dest?.toList ++ s.reads ++ match s with
    | .drop p => [p]
    | _ => []

/-- The places a terminator mentions. -/
def Terminator.places : Terminator → List Place
  | .branch c _ _ => c.place?.toList
  | .goto _ | .ret | .unreachable => []

def Block.places (b : Block) : List Place := b.statements.flatMap Statement.places ++ b.terminator.places

/-- The places of the body. -/
def Function.places (f : Function) : List Place := f.blocks.flatMap Block.places

theorem Function.mem_places {f : Function} {p : Place} : p ∈ f.places ↔
    ∃ b ∈ f.blocks, (∃ s ∈ b.statements, p ∈ s.places) ∨ p ∈ b.terminator.places := by
  simp only [places, Block.places, List.mem_flatMap, List.mem_append]

/-- The place has the root its name is declared as. -/
def Locals.Declares (ls : Locals) (p : Place) : Prop := ∃ d, ls.get? p.name = some d ∧ d.root = p.root

/-- The root of the place and the variables of its indices are declared. -/
structure Locals.Covers (ls : Locals) (p : Place) : Prop where
  root : ls.Declares p
  vars : ∀ v ∈ p.indexVars, ∃ d, ls.get? v = some d

/-- The root of the place is the one its name stands for. -/
def Locals.Looked (ls : Locals) (p : Place) : Prop := p.root = ls.rootOf p.name

theorem Locals.Declares.looked {ls : Locals} {p : Place} (h : ls.Declares p) : ls.Looked p := by
  obtain ⟨d, hd, hroot⟩ := h
  rw [Looked, rootOf, hd, ← hroot]
  rfl

/-- Every place in the body is covered by the declarations. -/
def Function.Closed (f : Function) : Prop := ∀ p ∈ f.places, f.locals.Covers p

/-! ## 3. Nodes read back -/

section Nodes

variable {ls : Locals} {n : Node}

/-- A list of nodes is read back node by node. -/
theorem eq_map_of_forall₂ {α β : Type} {g : β → α} {xs : List α} {ys : List β}
    (h : List.Forall₂ (fun x y => x = g y) xs ys) : xs = ys.map g := by
  induction h with
  | nil => rfl
  | cons hxy _ ih => rw [List.map_cons, hxy, ih]

theorem toPlace_eq_ok {p : Place} (h : n.toPlace ls = .ok p) : n = .placeNode p ∧ ls.Covers p := by
  cases n with
  | placeNode q =>
    rw [Node.toPlace] at h
    split at h
    · cases h
    · rename_i d hd
      obtain ⟨_, hroot, h⟩ := bind_eq_ok.mp h
      rw [require_eq_ok, beq_iff_eq] at hroot
      split at h
      · cases h
      · rename_i hfind
        cases h
        refine ⟨rfl, ⟨d, hd, hroot⟩, fun v hv => ?_⟩
        have hsome := List.find?_eq_none.mp hfind v hv
        exact Option.ne_none_iff_exists'.mp fun he => hsome (by rw [he]; rfl)
  | _ => cases h

theorem toLoanKind_eq_ok {k : LoanKind} (h : n.toLoanKind = .ok k) : n = .kindNode k := by
  cases n with
  | kindNode j =>
    cases h
    rfl
  | _ => cases h

theorem toOperand_eq_ok {o : Operand} (h : n.toOperand ls = .ok o) :
    n = o.draft ∧ ∀ p ∈ o.place?.toList, ls.Covers p := by
  cases n with
  | literalOperand v =>
    cases h
    exact ⟨rfl, fun p hp => nomatch hp⟩
  | copyOperand m =>
    obtain ⟨p, hp, rfl⟩ := map_eq_ok.mp h
    obtain ⟨rfl, hcov⟩ := toPlace_eq_ok hp
    exact ⟨rfl, fun q hq => List.mem_singleton.mp hq ▸ hcov⟩
  | moveOperand m =>
    obtain ⟨p, hp, rfl⟩ := map_eq_ok.mp h
    obtain ⟨rfl, hcov⟩ := toPlace_eq_ok hp
    exact ⟨rfl, fun q hq => List.mem_singleton.mp hq ▸ hcov⟩
  | refOperand m k =>
    obtain ⟨kind, hk, h⟩ := bind_eq_ok.mp h
    obtain ⟨p, hp, h⟩ := bind_eq_ok.mp h
    cases h
    obtain ⟨rfl, hcov⟩ := toPlace_eq_ok hp
    rw [toLoanKind_eq_ok hk]
    exact ⟨rfl, fun q hq => List.mem_singleton.mp hq ▸ hcov⟩
  | _ => cases h

/-- The places a value mentions. -/
def Value.places (v : Value) : List Place := v.cloned?.toList ++ v.operands.filterMap Operand.place?

theorem covers_of_operands {os : List Operand} (h : ∀ o ∈ os, ∀ p ∈ o.place?.toList, ls.Covers p) :
    ∀ p ∈ os.filterMap Operand.place?, ls.Covers p := by
  intro p hp
  obtain ⟨o, ho, hop⟩ := List.mem_filterMap.mp hp
  exact h o ho p (Option.mem_toList.mpr hop)

theorem toValue_eq_ok {v : Value} (h : n.toValue ls = .ok v) :
    n = v.draft ∧ ∀ p ∈ v.places, ls.Covers p := by
  cases n with
  | constValue l =>
    cases h
    exact ⟨rfl, fun p hp => nomatch hp⟩
  | allocValue t =>
    cases h
    exact ⟨rfl, fun p hp => nomatch hp⟩
  | useValue m =>
    obtain ⟨o, ho, rfl⟩ := map_eq_ok.mp h
    obtain ⟨rfl, hcov⟩ := toOperand_eq_ok ho
    exact ⟨rfl, covers_of_operands fun o' ho' => List.mem_singleton.mp ho' ▸ hcov⟩
  | cloneValue m =>
    obtain ⟨p, hp, rfl⟩ := map_eq_ok.mp h
    obtain ⟨rfl, hcov⟩ := toPlace_eq_ok hp
    exact ⟨rfl, fun q hq => List.mem_singleton.mp hq ▸ hcov⟩
  | callValue g args =>
    obtain ⟨os, hos, rfl⟩ := map_eq_ok.mp h
    have hall := forall₂_of_mapM hos
    refine ⟨?_, covers_of_operands fun o ho => ?_⟩
    · have hread : args = os.map Operand.draft :=
        eq_map_of_forall₂ (hall.imp fun _ _ hx => (toOperand_eq_ok hx).1)
      rw [hread]
      rfl
    · obtain ⟨_, _, hx⟩ := exists_of_forall₂ hall ho
      exact (toOperand_eq_ok hx).2
  | aggregateValue t fields =>
    obtain ⟨_, _, h⟩ := bind_eq_ok.mp h
    obtain ⟨os, hos, rfl⟩ := map_eq_ok.mp h
    have hall := forall₂_of_mapM hos
    have hfield : ∀ (x : String × Node) (y : String × Operand),
        (x.1, ·) <$> x.2.toOperand ls = .ok y →
          x = (y.1, y.2.draft) ∧ ∀ p ∈ y.2.place?.toList, ls.Covers p := by
      intro x y hxy
      obtain ⟨o, ho, rfl⟩ := map_eq_ok.mp hxy
      obtain ⟨hdraft, hcov⟩ := toOperand_eq_ok ho
      exact ⟨Prod.ext rfl hdraft, hcov⟩
    refine ⟨?_, covers_of_operands fun o ho => ?_⟩
    · have hread : fields = os.map fun y => (y.1, y.2.draft) :=
        eq_map_of_forall₂ (hall.imp fun x y hx => (hfield x y hx).1)
      rw [hread]
      rfl
    · obtain ⟨y, hy, rfl⟩ := List.mem_map.mp ho
      obtain ⟨x, _, hx⟩ := exists_of_forall₂ hall hy
      exact (hfield x y hx).2
  | _ => cases h

theorem toStatement_eq_ok {s : Statement} (h : n.toStatement ls = .ok s) :
    n = s.draft ∧ ∀ p ∈ s.places, ls.Covers p := by
  cases n with
  | assignStatement d v =>
    obtain ⟨dest, hd, h⟩ := bind_eq_ok.mp h
    obtain ⟨value, hv, h⟩ := bind_eq_ok.mp h
    cases h
    obtain ⟨rfl, hdest⟩ := toPlace_eq_ok hd
    obtain ⟨rfl, hvalue⟩ := toValue_eq_ok hv
    refine ⟨rfl, fun p hp => ?_⟩
    simp only [Statement.places, List.append_nil] at hp
    rcases List.mem_append.mp hp with hp | hp
    · exact List.mem_singleton.mp hp ▸ hdest
    · exact hvalue p hp
  | borrowStatement d m k =>
    obtain ⟨kind, hk, h⟩ := bind_eq_ok.mp h
    obtain ⟨dest, hd, h⟩ := bind_eq_ok.mp h
    obtain ⟨place, hp, h⟩ := bind_eq_ok.mp h
    cases h
    obtain ⟨rfl, hdest⟩ := toPlace_eq_ok hd
    obtain ⟨rfl, hplace⟩ := toPlace_eq_ok hp
    rw [toLoanKind_eq_ok hk]
    refine ⟨rfl, fun p hp => ?_⟩
    rcases List.mem_cons.mp hp with rfl | hp
    · exact hdest
    · exact List.mem_singleton.mp hp ▸ hplace
  | moveStatement d m =>
    obtain ⟨dest, hd, h⟩ := bind_eq_ok.mp h
    obtain ⟨src, hp, h⟩ := bind_eq_ok.mp h
    cases h
    obtain ⟨rfl, hdest⟩ := toPlace_eq_ok hd
    obtain ⟨rfl, hsrc⟩ := toPlace_eq_ok hp
    refine ⟨rfl, fun p hp => ?_⟩
    rcases List.mem_cons.mp hp with rfl | hp
    · exact hdest
    · exact List.mem_singleton.mp hp ▸ hsrc
  | dropStatement m =>
    obtain ⟨p, hp, rfl⟩ := map_eq_ok.mp h
    obtain ⟨rfl, hcov⟩ := toPlace_eq_ok hp
    exact ⟨rfl, fun q hq => List.mem_singleton.mp hq ▸ hcov⟩
  | evalStatement m =>
    obtain ⟨v, hv, rfl⟩ := map_eq_ok.mp h
    obtain ⟨rfl, hvalue⟩ := toValue_eq_ok hv
    refine ⟨rfl, fun p hp => ?_⟩
    simp only [Statement.places, List.append_nil] at hp
    exact hvalue p hp
  | _ => cases h

theorem toTarget_eq_ok {count t : Nat} (h : n.toTarget count = .ok t) :
    n = targetNode t ∧ t < count := by
  unfold Node.toTarget at h
  split at h
  · split at h
    · rename_i hlt
      cases h
      exact ⟨rfl, hlt⟩
    · cases h
  · cases h

theorem toTerminator_eq_ok {count b : Nat} {x : Terminator} (h : n.toTerminator ls count b = .ok x) :
    n = x.draft ∧ (∀ p ∈ x.places, ls.Covers p) ∧ ∀ t ∈ x.targets, t < count := by
  unfold Node.toTerminator at h
  split at h
  · cases h
  · obtain ⟨t, ht, rfl⟩ := map_eq_ok.mp h
    obtain ⟨rfl, hlt⟩ := toTarget_eq_ok ht
    exact ⟨rfl, fun p hp => (nomatch hp), fun u hu => List.mem_singleton.mp hu ▸ hlt⟩
  · obtain ⟨y, hy, h⟩ := bind_eq_ok.mp h
    obtain ⟨m, hm, h⟩ := bind_eq_ok.mp h
    obtain ⟨c, hc, h⟩ := bind_eq_ok.mp h
    cases h
    obtain ⟨rfl, hcov⟩ := toOperand_eq_ok hc
    obtain ⟨rfl, hyes⟩ := toTarget_eq_ok hy
    obtain ⟨rfl, hno⟩ := toTarget_eq_ok hm
    refine ⟨rfl, hcov, fun t ht => ?_⟩
    rw [Terminator.targets, List.mem_cons, List.mem_singleton] at ht
    rcases ht with rfl | rfl
    · exact hyes
    · exact hno
  · cases h
    exact ⟨rfl, fun p hp => (nomatch hp), fun t ht => (nomatch ht)⟩
  · cases h
    exact ⟨rfl, fun p hp => (nomatch hp), fun t ht => (nomatch ht)⟩
  · cases h

end Nodes

/-! ## 4. Functions -/

/-- There is a block to start from, jumps go to blocks, every root is declared under its own name, and
    the places that are written, as well as the return place, have the root their name is declared
    as. -/
structure Function.WellFormed (f : Function) : Prop where
  nonempty : 0 < f.blocks.length
  jumps : ∀ b ∈ f.blocks, ∀ t ∈ b.terminator.targets, t < f.blocks.length
  dests : ∀ b ∈ f.blocks, ∀ s ∈ b.statements, ∀ p, s.dest? = some p → f.locals.Declares p
  result : f.locals.Declares f.result
  named : ∀ x ∈ f.locals, x.2.root.name = x.1

/-- The whole root of a name has that name. -/
theorem Function.WellFormed.rootOf_name {f : Function} (hf : f.WellFormed) (v : String) :
    (f.rootOf v).name = v := by
  have hroot : (f.rootOf v).root = ((f.locals.get? v).map Decl.root).getD ⟨.localVar, v⟩ := rfl
  unfold Place.name
  rw [hroot]
  cases hd : f.locals.get? v with
  | none => rfl
  | some decl =>
    obtain ⟨_, _, hmem, _⟩ := List.lookup_eq_some_iff.mp hd
    exact hf.named (v, decl) (hmem ▸ List.mem_append_right _ List.mem_cons_self)

theorem Function.WellFormed.looked_rootOf {f : Function} (hf : f.WellFormed) (v : String) :
    f.locals.Looked (f.rootOf v) := by
  rw [Locals.Looked, hf.rootOf_name]
  rfl

namespace Draft

variable {d : Draft} {types : TypeTable} {f : Function}

theorem named_of_checkLocals {u : Unit} (h : d.checkLocals types = .ok u) :
    ∀ x ∈ d.locals, x.2.root.name = x.1 := by
  intro x hx
  obtain ⟨_, hname, _⟩ := bind_eq_ok.mp (ok_of_forM h x hx)
  rw [require_eq_ok, beq_iff_eq] at hname
  exact hname

theorem parts_of_checkHead {u : Unit} (h : d.checkHead types = .ok u) :
    0 < d.blocks.length ∧ d.locals.Declares d.result ∧ ∀ x ∈ d.locals, x.2.root.name = x.1 := by
  obtain ⟨_, hblocks, h⟩ := bind_eq_ok.mp h
  obtain ⟨_, hlocals, h⟩ := bind_eq_ok.mp h
  obtain ⟨_, _, h⟩ := bind_eq_ok.mp h
  obtain ⟨_, _, h⟩ := bind_eq_ok.mp h
  obtain ⟨_, _, hres⟩ := bind_eq_ok.mp h
  rw [require_eq_ok] at hblocks hres
  refine ⟨List.length_pos_iff.mpr (by simpa using hblocks), ?_, named_of_checkLocals hlocals⟩
  obtain ⟨decl, hd, hr⟩ := (Option.any_eq_true _ _).mp hres
  exact ⟨decl, hd, beq_iff_eq.mp hr⟩

theorem validateBlock_eq_ok {b : Nat} {raw : DraftBlock} {blk : Block}
    (h : d.validateBlock b raw = .ok blk) : raw = blk.draft ∧
      (∀ s ∈ blk.statements, ∀ p ∈ s.places, d.locals.Covers p) ∧
        (∀ p ∈ blk.terminator.places, d.locals.Covers p) ∧
          ∀ t ∈ blk.terminator.targets, t < d.blocks.length := by
  obtain ⟨statements, hstmts, h⟩ := bind_eq_ok.mp h
  obtain ⟨terminator, hterm, h⟩ := bind_eq_ok.mp h
  cases h
  have hall := forall₂_of_mapM hstmts
  obtain ⟨hexit, hcov, hlt⟩ := toTerminator_eq_ok (located_eq_ok.mp hterm)
  refine ⟨?_, fun s hs => ?_, hcov, hlt⟩
  · have hread : raw.statements = statements.map Statement.draft := by
      rw [← List.zipIdx_map_fst 0 raw.statements]
      refine eq_map_of_forall₂ (List.forall₂_map_left_iff.mpr ?_)
      exact hall.imp fun _ _ hx => (toStatement_eq_ok (located_eq_ok.mp hx)).1
    show raw = ⟨statements.map Statement.draft, terminator.draft⟩
    rw [← hread, ← hexit]
  · obtain ⟨_, _, hx⟩ := exists_of_forall₂ hall hs
    exact (toStatement_eq_ok (located_eq_ok.mp hx)).2

/-- What validation hands out: the head of the draft as it is, and its blocks one by one. -/
theorem validate_eq_ok (h : d.validate types = .ok f) :
    f.name = d.name ∧ f.params = d.params ∧ f.result = d.result ∧ f.locals = d.locals ∧
      List.Forall₂ (fun x b => d.validateBlock x.2 x.1 = .ok b) d.blocks.zipIdx f.blocks := by
  obtain ⟨_, _, h⟩ := bind_eq_ok.mp h
  obtain ⟨blocks, hblocks, h⟩ := bind_eq_ok.mp h
  cases h
  exact ⟨rfl, rfl, rfl, rfl, forall₂_of_mapM hblocks⟩

/-- **A validated function is well-formed.** -/
theorem wellFormed_of_validate (h : d.validate types = .ok f) : f.WellFormed := by
  obtain ⟨_, hhead, _⟩ := bind_eq_ok.mp h
  obtain ⟨hne, hres, hnamed⟩ := parts_of_checkHead (located_eq_ok.mp hhead)
  obtain ⟨_, _, hresult, hlocals, hall⟩ := validate_eq_ok h
  have hlen : f.blocks.length = d.blocks.length := by
    rw [← hall.length_eq, List.length_zipIdx]
  refine ⟨hlen ▸ hne, fun b hb => ?_, fun b hb s hs p hp => ?_, ?_, hlocals ▸ hnamed⟩
  · obtain ⟨_, _, hx⟩ := exists_of_forall₂ hall hb
    obtain ⟨_, _, _, hlt⟩ := validateBlock_eq_ok hx
    exact hlen ▸ hlt
  · obtain ⟨_, _, hx⟩ := exists_of_forall₂ hall hb
    obtain ⟨_, hcov, _⟩ := validateBlock_eq_ok hx
    have hdest : p ∈ s.places :=
      List.mem_append_left _ (List.mem_append_left _ (Option.mem_toList.mpr hp))
    exact hlocals ▸ (hcov s hs p hdest).root
  · rw [hlocals, hresult]
    exact hres

/-- **Validation reads a draft and changes nothing.** -/
theorem eq_draft_of_validate (h : d.validate types = .ok f) : d = f.draft := by
  obtain ⟨hname, hparams, hresult, hlocals, hall⟩ := validate_eq_ok h
  have hblocks : d.blocks = f.blocks.map Block.draft := by
    rw [← List.zipIdx_map_fst 0 d.blocks]
    refine eq_map_of_forall₂ (List.forall₂_map_left_iff.mpr ?_)
    exact hall.imp fun _ _ hx => (validateBlock_eq_ok hx).1
  rw [Function.draft, hname, hparams, hresult, hlocals, ← hblocks]

/-- **The declarations of a validated function cover its body.** -/
theorem closed_of_validate (h : d.validate types = .ok f) : f.Closed := by
  obtain ⟨_, _, _, hlocals, hall⟩ := validate_eq_ok h
  intro p hp
  obtain ⟨b, hb, hp⟩ := Function.mem_places.mp hp
  obtain ⟨_, _, hx⟩ := exists_of_forall₂ hall hb
  obtain ⟨_, hstmts, hexit, _⟩ := validateBlock_eq_ok hx
  rw [hlocals]
  rcases hp with ⟨s, hs, hp⟩ | hp
  · exact hstmts s hs p hp
  · exact hexit p hp

end Draft

end Ownership
