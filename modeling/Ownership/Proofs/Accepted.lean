import Ownership.Proofs.Checked.Lookup
import Ownership.Proofs.Validated

/-!
# Which functions validation accepts

A function read as a draft has no node in a wrong place, so little is left for validation to refuse:
its head, a place that the declarations do not cover, a jump to nowhere, and an aggregate that sets a
field twice. What is accepted is the function itself.

* `Function.draft_injective`: a draft comes from one function;
* `Function.validate_draft_iff`: when the draft of a function is accepted, and what comes out.
-/

namespace Ownership

/-! ## 1. One draft for each function -/

theorem Operand.draft_injective {o o' : Operand} (h : o.draft = o'.draft) : o = o' := by
  cases o <;> cases o' <;> simp_all [Operand.draft]

theorem Value.draft_injective {v v' : Value} (h : v.draft = v'.draft) : v = v' := by
  have hargs : ∀ {os os' : List Operand}, os.map Operand.draft = os'.map Operand.draft → os = os' :=
    (List.map_injective_iff.mpr fun _ _ => Operand.draft_injective).eq_iff.mp
  have hfields : ∀ {fs fs' : List (String × Operand)}, (fs.map fun x => (x.1, x.2.draft)) =
      (fs'.map fun x => (x.1, x.2.draft)) → fs = fs' := by
    refine (List.map_injective_iff.mpr fun x y hxy => ?_).eq_iff.mp
    obtain ⟨hname, hdraft⟩ := Prod.mk.inj hxy
    exact Prod.ext hname (Operand.draft_injective hdraft)
  cases v with
  | const l => cases v' <;> simp_all [Value.draft]
  | alloc t => cases v' <;> simp_all [Value.draft]
  | clone p => cases v' <;> simp_all [Value.draft]
  | use o =>
    cases v' <;> simp only [Value.draft, Node.useValue.injEq, reduceCtorEq] at h
    rw [Operand.draft_injective h]
  | call g args =>
    cases v' <;> simp only [Value.draft, Node.callValue.injEq, reduceCtorEq] at h
    rw [h.1, hargs h.2]
  | aggregate t fields =>
    cases v' <;> simp only [Value.draft, Node.aggregateValue.injEq, reduceCtorEq] at h
    rw [h.1, hfields h.2]

theorem Statement.draft_injective {s s' : Statement} (h : s.draft = s'.draft) : s = s' := by
  cases s with
  | assign d v =>
    cases s' <;> simp only [Statement.draft, Node.assignStatement.injEq, reduceCtorEq] at h
    rw [Node.placeNode.inj h.1, Value.draft_injective h.2]
  | eval v =>
    cases s' <;> simp only [Statement.draft, Node.evalStatement.injEq, reduceCtorEq] at h
    rw [Value.draft_injective h]
  | borrow d p k => cases s' <;> simp_all [Statement.draft]
  | move d p => cases s' <;> simp_all [Statement.draft]
  | drop p => cases s' <;> simp_all [Statement.draft]

theorem targetNode_injective {t t' : Nat} (h : targetNode t = targetNode t') : t = t' :=
  Int.ofNat.inj (Literal.int.inj (Node.literalNode.inj h))

theorem Terminator.draft_injective {x x' : Terminator} (h : x.draft = x'.draft) : x = x' := by
  cases x with
  | goto t =>
    cases x' <;> simp only [Terminator.draft, Node.gotoTerminator.injEq, reduceCtorEq] at h
    rw [targetNode_injective h]
  | branch c y n =>
    cases x' <;> simp only [Terminator.draft, Node.branchTerminator.injEq, reduceCtorEq] at h
    rw [Operand.draft_injective h.1, targetNode_injective h.2.1, targetNode_injective h.2.2]
  | ret => cases x' <;> simp_all [Terminator.draft]
  | unreachable => cases x' <;> simp_all [Terminator.draft]

theorem Block.draft_injective {b b' : Block} (h : b.draft = b'.draft) : b = b' := by
  obtain ⟨hs, hx⟩ := DraftBlock.mk.inj h
  have hs := (List.map_injective_iff.mpr fun _ _ => Statement.draft_injective).eq_iff.mp hs
  obtain ⟨ss, x⟩ := b
  obtain ⟨ss', x'⟩ := b'
  exact congr (congrArg Block.mk hs) (Terminator.draft_injective hx)

theorem Function.draft_injective {f f' : Function} (h : f.draft = f'.draft) : f = f' := by
  obtain ⟨hname, hparams, hresult, hlocals, hblocks⟩ := Draft.mk.inj h
  have hblocks := (List.map_injective_iff.mpr fun _ _ => Block.draft_injective).eq_iff.mp hblocks
  obtain ⟨name, params, result, locals, blocks⟩ := f
  obtain ⟨name', params', result', locals', blocks'⟩ := f'
  subst hname hparams hresult hlocals hblocks
  rfl

/-! ## 2. Nodes that are accepted -/

section Nodes

variable {ls : Locals}

/-- The names of the fields that a value sets. -/
def Value.fieldNames : Value → List String
  | .aggregate _ fields => fields.map Prod.fst
  | .const _ => []
  | .alloc _ => []
  | .use _ => []
  | .clone _ => []
  | .call _ _ => []

/-- Values that are each read back make a list that is read back. -/
theorem mapM_map_ok {ε α β γ : Type} {k : β → Except ε α} {g : γ → β} {r : γ → α} {xs : List γ}
    (h : ∀ x ∈ xs, k (g x) = .ok (r x)) : (xs.map g).mapM k = .ok (xs.map r) := by
  induction xs with
  | nil => rfl
  | cons x xs ih =>
    have hx := h x List.mem_cons_self
    have hxs := ih fun y hy => h y (List.mem_cons_of_mem _ hy)
    rw [List.map_cons, List.mapM_cons, hx, hxs]
    rfl

theorem mapM_zipIdx_ok {ε α β : Type} {k : β × Nat → Except ε α} {g : α → β} {xs : List α}
    (h : ∀ x ∈ xs, ∀ i, k (g x, i) = .ok x) : (xs.map g).zipIdx.mapM k = .ok xs := by
  have hzip : (xs.map g).zipIdx = xs.zipIdx.map (Prod.map g id) := List.zipIdx_map
  have hall : (xs.zipIdx.map (Prod.map g id)).mapM k = .ok (xs.zipIdx.map Prod.fst) :=
    mapM_map_ok fun x hx => h x.1 (List.mem_of_getElem? (List.mem_zipIdx_iff_getElem?.mp hx)) x.2
  rw [hzip, hall, List.zipIdx_map_fst]

theorem toPlace_of_covers {p : Place} (h : ls.Covers p) : (Node.placeNode p).toPlace ls = .ok p := by
  obtain ⟨⟨d, hd, hroot⟩, hvars⟩ := h
  have hnone : p.indexVars.find? (fun v => (ls.get? v).isNone) = none := by
    refine List.find?_eq_none.mpr fun v hv => ?_
    obtain ⟨e, he⟩ := hvars v hv
    rw [he]
    exact Bool.false_ne_true
  have hreq : require (d.root == p.root) (.kindMismatch p d.root.kind) = .ok () :=
    require_eq_ok.mpr (beq_iff_eq.mpr hroot)
  simp only [Node.toPlace, hd, hreq, hnone, ok_bind]

theorem toOperand_draft {o : Operand} (h : ∀ p ∈ o.place?.toList, ls.Covers p) :
    o.draft.toOperand ls = .ok o := by
  cases o with
  | copy p => exact map_eq_ok.mpr ⟨p, toPlace_of_covers (h p List.mem_cons_self), rfl⟩
  | move p => exact map_eq_ok.mpr ⟨p, toPlace_of_covers (h p List.mem_cons_self), rfl⟩
  | ref p k =>
    have hp := toPlace_of_covers (h p List.mem_cons_self)
    exact bind_eq_ok.mpr ⟨k, rfl, bind_eq_ok.mpr ⟨p, hp, rfl⟩⟩
  | literal v => rfl

theorem toValue_draft {v : Value} (h : ∀ p ∈ v.places, ls.Covers p) (hn : v.fieldNames.Nodup) :
    v.draft.toValue ls = .ok v := by
  have hops : ∀ o ∈ v.operands, o.draft.toOperand ls = .ok o := fun o ho =>
    toOperand_draft fun p hp => h p (List.mem_append_right _
      (List.mem_filterMap.mpr ⟨o, ho, Option.mem_toList.mp hp⟩))
  cases v with
  | const l => rfl
  | alloc t => rfl
  | use o => exact map_eq_ok.mpr ⟨o, hops o List.mem_cons_self, rfl⟩
  | clone p => exact map_eq_ok.mpr ⟨p, toPlace_of_covers (h p List.mem_cons_self), rfl⟩
  | call g args =>
    have hargs : (args.map Operand.draft).mapM (·.toOperand ls) = .ok (args.map id) :=
      mapM_map_ok fun o ho => hops o ho
    rw [List.map_id] at hargs
    exact map_eq_ok.mpr ⟨args, hargs, rfl⟩
  | aggregate t fields =>
    have hnames : (fields.map fun x => (x.1, x.2.draft)).map Prod.fst = fields.map Prod.fst := by
      rw [List.map_map]
      rfl
    have hreq : require (decide ((fields.map fun x => (x.1, x.2.draft)).map Prod.fst).Nodup)
        (.fieldTwice t) = .ok () := by
      rw [require_eq_ok, hnames]
      exact decide_eq_true hn
    have hfields : (fields.map fun x => (x.1, x.2.draft)).mapM
        (fun x => (x.1, ·) <$> x.2.toOperand ls) = .ok (fields.map id) :=
      mapM_map_ok fun x hx => map_eq_ok.mpr ⟨x.2, hops x.2 (List.mem_map_of_mem hx), rfl⟩
    rw [List.map_id] at hfields
    exact bind_eq_ok.mpr ⟨(), hreq, map_eq_ok.mpr ⟨fields, hfields, rfl⟩⟩

theorem toStatement_draft {s : Statement} (h : ∀ p ∈ s.places, ls.Covers p)
    (hn : ∀ v ∈ s.value?, v.fieldNames.Nodup) : s.draft.toStatement ls = .ok s := by
  cases s with
  | assign d v =>
    have hd := toPlace_of_covers (h d List.mem_cons_self)
    have hv := toValue_draft (fun p hp => h p (List.mem_cons_of_mem _ (List.mem_append_left _ hp)))
      (hn v rfl)
    exact bind_eq_ok.mpr ⟨d, hd, bind_eq_ok.mpr ⟨v, hv, rfl⟩⟩
  | borrow d p k =>
    have hd := toPlace_of_covers (h d List.mem_cons_self)
    have hp := toPlace_of_covers (h p (List.mem_cons_of_mem _ List.mem_cons_self))
    exact bind_eq_ok.mpr ⟨k, rfl, bind_eq_ok.mpr ⟨d, hd, bind_eq_ok.mpr ⟨p, hp, rfl⟩⟩⟩
  | move d p =>
    have hd := toPlace_of_covers (h d List.mem_cons_self)
    have hp := toPlace_of_covers (h p (List.mem_cons_of_mem _ List.mem_cons_self))
    exact bind_eq_ok.mpr ⟨d, hd, bind_eq_ok.mpr ⟨p, hp, rfl⟩⟩
  | drop p => exact map_eq_ok.mpr ⟨p, toPlace_of_covers (h p List.mem_cons_self), rfl⟩
  | eval v =>
    have hv := toValue_draft (fun p hp => h p (List.mem_append_left _ hp)) (hn v rfl)
    exact map_eq_ok.mpr ⟨v, hv, rfl⟩

theorem toTarget_targetNode {count t : Nat} (h : t < count) : (targetNode t).toTarget count = .ok t :=
  if_pos h

theorem toTerminator_draft {x : Terminator} {count b : Nat} (h : ∀ p ∈ x.places, ls.Covers p)
    (ht : ∀ t ∈ x.targets, t < count) : x.draft.toTerminator ls count b = .ok x := by
  cases x with
  | goto t => exact map_eq_ok.mpr ⟨t, toTarget_targetNode (ht t List.mem_cons_self), rfl⟩
  | branch c y n =>
    have hy := toTarget_targetNode (ht y List.mem_cons_self)
    have hm := toTarget_targetNode (ht n (List.mem_cons_of_mem _ List.mem_cons_self))
    have hc := toOperand_draft h
    exact bind_eq_ok.mpr ⟨y, hy, bind_eq_ok.mpr ⟨n, hm, bind_eq_ok.mpr ⟨c, hc, rfl⟩⟩⟩
  | ret => rfl
  | unreachable => rfl

/-- An aggregate that is accepted sets no field twice. -/
theorem fieldNames_of_toValue {v : Value} (h : v.draft.toValue ls = .ok v) : v.fieldNames.Nodup := by
  cases v with
  | aggregate t fields =>
    obtain ⟨_, hreq, _⟩ := bind_eq_ok.mp h
    rw [require_eq_ok, decide_eq_true_eq, List.map_map] at hreq
    exact hreq
  | _ => exact List.nodup_nil

theorem fieldNames_of_toStatement {s : Statement} (h : s.draft.toStatement ls = .ok s) :
    ∀ v ∈ s.value?, v.fieldNames.Nodup := by
  cases s with
  | assign d v =>
    obtain ⟨_, _, h⟩ := bind_eq_ok.mp h
    obtain ⟨v', hv, h⟩ := bind_eq_ok.mp h
    cases h
    rintro _ ⟨⟩
    exact fieldNames_of_toValue hv
  | eval v =>
    obtain ⟨v', hv, h⟩ := map_eq_ok.mp h
    cases h
    rintro _ ⟨⟩
    exact fieldNames_of_toValue hv
  | borrow d p k => exact fun v hv => absurd hv (Option.not_mem_none v)
  | move d p => exact fun v hv => absurd hv (Option.not_mem_none v)
  | drop p => exact fun v hv => absurd hv (Option.not_mem_none v)

end Nodes

/-! ## 3. Functions that are accepted -/

namespace Function

variable {f g : Function} {types : TypeTable}

/-- No aggregate sets a field twice. -/
def FieldsOnce (f : Function) : Prop :=
  ∀ b ∈ f.blocks, ∀ s ∈ b.statements, ∀ v ∈ s.value?, v.fieldNames.Nodup

/-- Every jump goes to a block. -/
def JumpsInside (f : Function) : Prop :=
  ∀ b ∈ f.blocks, ∀ t ∈ b.terminator.targets, t < f.blocks.length

theorem validateBlock_draft (hc : f.Closed) (ht : f.JumpsInside) (hn : f.FieldsOnce) {b : Block}
    (hb : b ∈ f.blocks) (i : Nat) : f.draft.validateBlock i b.draft = .ok b := by
  have hplaces : ∀ {p}, (∃ s ∈ b.statements, p ∈ s.places) ∨ p ∈ b.terminator.places →
      f.locals.Covers p := fun hp => hc _ (mem_places.mpr ⟨b, hb, hp⟩)
  have hstmts : b.draft.statements.zipIdx.mapM (fun x => located f.name (some ⟨i, x.2⟩)
      (x.1.toStatement f.locals)) = .ok b.statements := by
    refine mapM_zipIdx_ok fun s hs j => located_eq_ok.mpr ?_
    exact toStatement_draft (fun p hp => hplaces (.inl ⟨s, hs, hp⟩)) (hn b hb s hs)
  have hexit : located f.name (some ⟨i, b.draft.statements.length⟩)
      (b.draft.terminator.toTerminator f.locals f.draft.blocks.length i) = .ok b.terminator := by
    refine located_eq_ok.mpr (toTerminator_draft (fun p hp => hplaces (.inr hp)) fun t ht' => ?_)
    rw [show f.draft.blocks.length = f.blocks.length from List.length_map _]
    exact ht b hb t ht'
  exact bind_eq_ok.mpr ⟨_, hstmts, bind_eq_ok.mpr ⟨_, hexit, rfl⟩⟩

/-- **Validation of a function read as a draft**: it succeeds when the head is in order, the
    declarations cover the body, jumps stay inside and no aggregate sets a field twice; and it gives
    the function back. -/
theorem validate_draft_iff : f.draft.validate types = .ok g ↔ g = f ∧
    f.draft.checkHead types = .ok () ∧ f.Closed ∧ f.JumpsInside ∧ f.FieldsOnce := by
  constructor
  · intro h
    have hg := draft_injective (Draft.eq_draft_of_validate h)
    subst hg
    obtain ⟨_, hhead, hblocks⟩ := bind_eq_ok.mp h
    refine ⟨rfl, located_eq_ok.mp hhead, Draft.closed_of_validate h,
      (Draft.wellFormed_of_validate h).jumps, fun b hb s hs => ?_⟩
    obtain ⟨_, _, _, _, hall⟩ := Draft.validate_eq_ok h
    obtain ⟨x, _, hx⟩ := exists_of_forall₂ hall hb
    obtain ⟨ss, hstmts, hx⟩ := bind_eq_ok.mp hx
    obtain ⟨_, _, hx⟩ := bind_eq_ok.mp hx
    cases hx
    obtain ⟨y, _, hy⟩ := exists_of_forall₂ (forall₂_of_mapM hstmts) hs
    have hy := located_eq_ok.mp hy
    rw [(toStatement_eq_ok hy).1] at hy
    exact fieldNames_of_toStatement hy
  · rintro ⟨rfl, hhead, hc, ht, hn⟩
    have hblocks : g.draft.blocks.zipIdx.mapM (fun x => g.draft.validateBlock x.2 x.1) =
        .ok g.blocks := mapM_zipIdx_ok fun b hb i => validateBlock_draft hc ht hn hb i
    exact bind_eq_ok.mpr ⟨(), located_eq_ok.mpr hhead, bind_eq_ok.mpr ⟨g.blocks, hblocks, rfl⟩⟩

end Function

end Ownership
