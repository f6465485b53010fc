import Ownership.Proofs.Checked.Written
import Ownership.Proofs.Sketch.Draft

/-!
# Drafts that can be written out

A complaint quotes what it is about, and a number of too many digits cannot be quoted. If every number
of a draft can be written out, so can each complaint of validation (`Draft.prints_fault`), and the
function that the draft stands for is writable (`Function.writable_of_prints`).

The faults of a node quote the node, its parts, or places in it. `Quotable` says that whatever fault a
check finds can be written out; there is one lemma for each check.
-/

namespace Ownership

open Text (isShort)

/-- Every number of the draft can be written out. -/
def Draft.prints (d : Draft) : Bool :=
  d.locals.all (fun x => x.2.type.all isShort) && (d.result :: d.params).all (fun p => Path.prints p.path)
    && d.blocks.all fun b => (b.terminator :: b.statements).all Node.prints

/-! ## 1. Checks -/

/-- Whatever the check complains of is quotable. -/
def Quotable {ε α : Type} (quotable : ε → Bool) (x : Except ε α) : Prop :=
  ∀ e, x = .error e → quotable e = true

namespace Quotable

variable {ε α β : Type} {quotable : ε → Bool} {x : Except ε α}

theorem ok (a : α) : Quotable quotable (.ok a) := fun _ h => nomatch h

theorem error {e : ε} (h : quotable e = true) : Quotable (α := α) quotable (.error e) := by
  intro e' he
  cases he
  exact h

theorem bind {k : α → Except ε β} (hx : Quotable quotable x) (hk : ∀ a, Quotable quotable (k a)) :
    Quotable quotable (x >>= k) := by
  cases x with
  | error e => exact error (hx e rfl)
  | ok a => exact hk a

theorem map (g : α → β) (hx : Quotable quotable x) : Quotable quotable (g <$> x) := by
  cases x with
  | error e => exact error (hx e rfl)
  | ok a => exact ok (g a)

theorem mapM {xs : List α} {k : α → Except ε β} (h : ∀ x ∈ xs, Quotable quotable (k x)) :
    Quotable quotable (xs.mapM k) := by
  induction xs with
  | nil => exact ok []
  | cons x xs ih =>
    rw [List.mapM_cons]
    have hxs := ih fun y hy => h y (List.mem_cons_of_mem _ hy)
    exact (h x List.mem_cons_self).bind fun y => hxs.bind fun ys => ok (y :: ys)

theorem forM {xs : List α} {k : α → Except ε Unit} (h : ∀ x ∈ xs, Quotable quotable (k x)) :
    Quotable quotable (xs.forM k) := by
  induction xs with
  | nil => exact ok ()
  | cons x xs ih =>
    exact (h x List.mem_cons_self).bind fun _ => ih fun y hy => h y (List.mem_cons_of_mem _ hy)

theorem of_require {c : Bool} {e : Fault} (h : e.prints = true) : Quotable Fault.prints (require c e) := by
  cases c with
  | true => exact ok ()
  | false => exact error h

theorem require_bind {c : Bool} {e : Fault} {k : Unit → Except Fault β} (h : e.prints = true)
    (hk : ∀ a, Quotable Fault.prints (k a)) : Quotable Fault.prints (require c e >>= k) :=
  (of_require h).bind hk

/-- Where a fault is located does not matter. -/
theorem located {x : Except Fault α} (h : Quotable Fault.prints x) (function : String)
    (point : Option Point) : Quotable (fun m => m.fault.prints) (located function point x) := by
  cases x with
  | ok a => exact ok a
  | error e => exact error (h e rfl)

end Quotable

/-! ## 2. Nodes -/

namespace Node

theorem printsAll_eq (ns : List Node) : printsAll ns = ns.all prints := by
  induction ns with
  | nil => rfl
  | cons n ns ih => rw [printsAll, ih, List.all_cons]

theorem printsFields_eq (fs : List (String × Node)) : printsFields fs = fs.all fun f => f.2.prints := by
  induction fs with
  | nil => rfl
  | cons f fs ih => rw [printsFields, ih, List.all_cons]

variable (ls : Locals) {n : Node} (h : n.prints = true)

include h

theorem quotable_toPlace : Quotable Fault.prints (n.toPlace ls) := by
  cases n with
  | placeNode p =>
    have hp : p.renders = true := Place.renders_of_prints h
    rw [toPlace]
    split
    · exact .error rfl
    · refine .require_bind hp fun _ => ?_
      split
      · exact .error hp
      · exact .ok p
  | _ => exact .error h

theorem quotable_toLoanKind : Quotable Fault.prints n.toLoanKind := by
  cases n with
  | kindNode k => exact .ok k
  | _ => exact .error h

theorem quotable_toOperand : Quotable Fault.prints (n.toOperand ls) := by
  cases n with
  | literalOperand v => exact .ok _
  | copyOperand p => exact .map _ (quotable_toPlace ls h)
  | moveOperand p => exact .map _ (quotable_toPlace ls h)
  | refOperand p k =>
    obtain ⟨hp, hk⟩ := Bool.and_eq_true_iff.mp h
    exact (quotable_toLoanKind hk).bind fun kind => (quotable_toPlace ls hp).bind fun place => .ok _
  | _ => exact .error h

theorem quotable_toValue : Quotable Fault.prints (n.toValue ls) := by
  cases n with
  | constValue v => exact .ok _
  | allocValue t => exact .ok _
  | useValue o => exact .map _ (quotable_toOperand ls h)
  | cloneValue p => exact .map _ (quotable_toPlace ls h)
  | callValue f args =>
    have hargs : args.all prints = true := (printsAll_eq args).symm.trans h
    exact .map _ (.mapM fun a ha => quotable_toOperand ls (List.all_eq_true.mp hargs a ha))
  | aggregateValue t fields =>
    have hfields : (fields.all fun f => f.2.prints) = true := (printsFields_eq fields).symm.trans h
    refine .require_bind rfl fun _ => .map _ (.mapM fun f hf => ?_)
    exact .map _ (quotable_toOperand ls (List.all_eq_true.mp hfields f hf))
  | _ => exact .error h

theorem quotable_toStatement : Quotable Fault.prints (n.toStatement ls) := by
  cases n with
  | assignStatement d v =>
    obtain ⟨hd, hv⟩ := Bool.and_eq_true_iff.mp h
    exact (quotable_toPlace ls hd).bind fun dest => (quotable_toValue ls hv).bind fun value => .ok _
  | borrowStatement d p k =>
    obtain ⟨hdp, hk⟩ := Bool.and_eq_true_iff.mp h
    obtain ⟨hd, hp⟩ := Bool.and_eq_true_iff.mp hdp
    exact (quotable_toLoanKind hk).bind fun kind => (quotable_toPlace ls hd).bind fun dest =>
      (quotable_toPlace ls hp).bind fun place => .ok _
  | moveStatement d p =>
    obtain ⟨hd, hp⟩ := Bool.and_eq_true_iff.mp h
    exact (quotable_toPlace ls hd).bind fun dest => (quotable_toPlace ls hp).bind fun src => .ok _
  | dropStatement p => exact .map _ (quotable_toPlace ls h)
  | evalStatement v => exact .map _ (quotable_toValue ls h)
  | _ => exact .error h

theorem quotable_toTarget (count : Nat) : Quotable Fault.prints (n.toTarget count) := by
  unfold toTarget
  split
  · split_ifs
    · exact .ok _
    · exact .error h
  · exact .error h

theorem quotable_toTerminator (count b : Nat) : Quotable Fault.prints (n.toTerminator ls count b) := by
  cases n with
  | literalNode v => cases v <;> exact .error h
  | gotoTerminator t => exact .map _ (quotable_toTarget (n := t) h count)
  | branchTerminator c y m =>
    obtain ⟨hcy, hm⟩ := Bool.and_eq_true_iff.mp h
    obtain ⟨hc, hy⟩ := Bool.and_eq_true_iff.mp hcy
    exact (quotable_toTarget hy count).bind fun yes => (quotable_toTarget hm count).bind fun no =>
      (quotable_toOperand ls hc).bind fun cond => .ok _
  | retTerminator => exact .ok _
  | unreachableTerminator => exact .ok _
  | _ => exact .error h

end Node

/-! ## 3. Drafts -/

namespace Draft

variable {d : Draft} (h : d.prints = true)

include h

theorem prints_parts : (∀ x ∈ d.locals, x.2.type.all isShort = true) ∧
    (∀ p ∈ d.result :: d.params, Path.prints p.path = true) ∧
    ∀ b ∈ d.blocks, ∀ n ∈ b.terminator :: b.statements, n.prints = true := by
  obtain ⟨hhead, hblocks⟩ := Bool.and_eq_true_iff.mp h
  obtain ⟨hlocals, hplaces⟩ := Bool.and_eq_true_iff.mp hhead
  exact ⟨List.all_eq_true.mp hlocals, List.all_eq_true.mp hplaces,
    fun b hb => List.all_eq_true.mp (List.all_eq_true.mp hblocks b hb)⟩

theorem quotable_checkHead (types : TypeTable) : Quotable Fault.prints (d.checkHead types) := by
  obtain ⟨htypes, hplaces, _⟩ := prints_parts h
  have hlocals : Quotable Fault.prints (d.checkLocals types) := .forM fun x hx => by
    refine .require_bind rfl fun _ => .of_require ?_
    have hshort := htypes x hx
    cases ht : x.2.type with
    | none => rfl
    | some t =>
      simpa only [ht, Fault.prints, Option.all_some] using hshort
  have hparams : ∀ ps : List Place, (∀ p ∈ ps, Path.prints p.path = true) →
      ∀ seen, Quotable Fault.prints (checkParams d.locals seen ps) := by
    intro ps
    induction ps with
    | nil => exact fun _ _ => .ok ()
    | cons p ps ih =>
      intro hps seen
      refine .require_bind (Place.renders_of_prints (hps p List.mem_cons_self)) fun _ => ?_
      refine .require_bind rfl fun _ => .require_bind rfl fun _ => ?_
      exact ih (fun q hq => hps q (List.mem_cons_of_mem _ hq)) _
  refine .require_bind rfl fun _ => hlocals.bind fun _ => ?_
  refine (hparams d.params (fun p hp => hplaces p (List.mem_cons_of_mem _ hp)) []).bind fun _ => ?_
  have hlisted : Quotable Fault.prints d.checkListed := .forM fun x _ => .of_require rfl
  refine hlisted.bind fun _ => ?_
  exact .require_bind (Place.renders_of_prints (hplaces _ List.mem_cons_self)) fun _ => .of_require rfl

/-- **What validation complains of can be written out**, in a draft whose numbers can be. -/
theorem prints_fault {types : TypeTable} {m : Malformed} (hm : d.validate types = .error m) :
    m.fault.prints = true := by
  obtain ⟨_, _, hnodes⟩ := prints_parts h
  have hblock : ∀ x ∈ d.blocks.zipIdx, Quotable (fun m => m.fault.prints) (d.validateBlock x.2 x.1) := by
    intro x hx
    have hx := hnodes x.1 (List.mem_of_getElem? (List.mem_zipIdx_iff_getElem?.mp hx))
    refine .bind (.mapM fun y hy => ?_) fun statements => .bind ?_ fun terminator => .ok _
    · have hy := List.mem_of_getElem? (List.mem_zipIdx_iff_getElem?.mp hy)
      exact (Node.quotable_toStatement _ (hx _ (List.mem_cons_of_mem _ hy))).located _ _
    · exact (Node.quotable_toTerminator _ (hx _ List.mem_cons_self) _ _).located _ _
  have hvalidate : Quotable (fun m => m.fault.prints) (d.validate types) :=
    ((quotable_checkHead h types).located _ _).bind fun _ => (Quotable.mapM hblock).bind fun _ => .ok _
  exact hvalidate m hm

end Draft

/-! ## 4. Functions -/

theorem Operand.prints_of_draft {o : Operand} (h : o.draft.prints = true) {p : Place}
    (hp : o.place? = some p) : Path.prints p.path = true := by
  cases o with
  | copy q =>
    cases hp
    exact h
  | move q =>
    cases hp
    exact h
  | ref q k =>
    cases hp
    exact (Bool.and_eq_true_iff.mp h).1
  | literal v => cases hp

theorem Value.prints_of_draft {v : Value} (h : v.draft.prints = true) :
    ∀ p ∈ v.places, Path.prints p.path = true := by
  have hoperands : ∀ o ∈ v.operands, o.draft.prints = true := by
    cases v with
    | use o => exact fun o' ho => List.mem_singleton.mp ho ▸ h
    | call f args =>
      rw [draft, Node.prints, Node.printsAll_eq, List.all_map] at h
      exact List.all_eq_true.mp h
    | aggregate t fields =>
      rw [draft, Node.prints, Node.printsFields_eq, List.all_map] at h
      intro o ho
      obtain ⟨f, hf, rfl⟩ := List.mem_map.mp ho
      exact List.all_eq_true.mp h f hf
    | _ => exact List.forall_mem_nil _
  intro p hp
  rcases List.mem_append.mp hp with hp | hp
  · cases v with
    | clone q => exact List.mem_singleton.mp hp ▸ h
    | _ => cases hp
  · obtain ⟨o, ho, hop⟩ := List.mem_filterMap.mp hp
    exact Operand.prints_of_draft (hoperands o ho) hop

theorem Statement.prints_of_draft {s : Statement} (h : s.draft.prints = true) :
    ∀ p ∈ s.places, Path.prints p.path = true := by
  intro p hp
  cases s with
  | assign d v =>
    obtain ⟨hd, hv⟩ := Bool.and_eq_true_iff.mp h
    rcases List.mem_append.mp hp with hp | hp
    · rcases List.mem_cons.mp hp with rfl | hp
      · exact hd
      · exact Value.prints_of_draft hv p hp
    · cases hp
  | borrow d q k =>
    obtain ⟨hd, hq⟩ := Bool.and_eq_true_iff.mp (Bool.and_eq_true_iff.mp h).1
    rcases List.mem_cons.mp hp with rfl | hp
    · exact hd
    · exact List.mem_singleton.mp hp ▸ hq
  | move d q =>
    obtain ⟨hd, hq⟩ := Bool.and_eq_true_iff.mp h
    rcases List.mem_cons.mp hp with rfl | hp
    · exact hd
    · exact List.mem_singleton.mp hp ▸ hq
  | drop q => exact List.mem_singleton.mp hp ▸ h
  | eval v =>
    rcases List.mem_append.mp hp with hp | hp
    · exact Value.prints_of_draft h p hp
    · cases hp

/-- The places of a function whose numbers can be written out can be, too. -/
theorem Function.writable_of_prints {f : Function} (h : f.draft.prints = true) : f.Writable := by
  obtain ⟨_, _, hnodes⟩ := Draft.prints_parts h
  intro p hp
  obtain ⟨b, hb, hp⟩ := Function.mem_places.mp hp
  have hblock := hnodes b.draft (List.mem_map_of_mem hb)
  rcases hp with ⟨s, hs, hp⟩ | hp
  · exact Statement.prints_of_draft
      (hblock s.draft (List.mem_cons_of_mem _ (List.mem_map_of_mem hs))) p hp
  · have hterm := hblock b.terminator.draft List.mem_cons_self
    cases ht : b.terminator with
    | branch c y n =>
      rw [ht] at hp hterm
      have hc := (Bool.and_eq_true_iff.mp (Bool.and_eq_true_iff.mp hterm).1).1
      exact Operand.prints_of_draft hc (Option.mem_toList.mp hp)
    | _ =>
      rw [ht] at hp
      cases hp

end Ownership
