import Ownership.Proofs.Conflict.Reported
import Ownership.Proofs.Moves.Pass

/-!
# What is tracked and what is reported

The pass over ownership and the detector go through the same points, each with a list of its own: the
effects of a point and its accesses. The detector does not look at all that the pass reads. The condition
of a branch is only ever read for it, although a branch may move its condition away, and places that are
read on the way to another place are left out: the variables of indices, the reference that a write goes
through, and the return place where a function returns.

* `Function.Needs`: places that have to be there for the sake of something else;
* `take_mem_effectsAt`, `use_mem_effectsAt`: the effects of a point, by what happens there;
* `tracked_accesses_reported`: which of the moves and uses that the pass finds are reported;
* `fork_probe_unreported`: a good verdict does not exclude the others.
-/

namespace Ownership

/-! ## 1. What a point needs -/

namespace Function

variable (f : Function)

/-- The place is a variable that an index of the place `r` is read from. -/
def Indexes (r q : Place) : Prop := ∃ v ∈ r.indexVars, q = f.rootOf v

/-- The places that are evaluated at a point, those that are written included. -/
def placesAt (p : Point) : List Place :=
  match f.statementAt? p with
  | some s => s.reads ++ s.dest?.toList
  | none => match (f.block p.block).terminator with
    | .branch c _ _ => c.place?.toList
    | .ret => if f.writesResult then [f.result] else []
    | .goto _ | .unreachable => []

/-- The place has to be there at the point for the sake of something else. -/
inductive Needs (p : Point) : Place → Prop where
  /-- The variable of an index. -/
  | index {r q : Place} (hr : r ∈ f.placesAt p) (hq : f.Indexes r q) : Needs p q
  /-- The reference that is written through. -/
  | carrier {s : Statement} {d : Place} (hs : f.statementAt? p = some s) (hd : s.dest? = some d)
      (hderef : d.hasDeref = true) : Needs p d.carrier
  /-- What is handed to the caller. -/
  | result (hs : f.statementAt? p = none) (ht : (f.block p.block).terminator = .ret)
      (hw : f.writesResult = true) : Needs p f.result

end Function

/-! ## 2. The effects of a point -/

namespace Function

variable {f : Function} {types : TypeTable} {p : Point} {q : Place}

theorem use_mem_readEffects {r : Place} {action : Action} :
    .read q .use ∈ f.readEffects r action ↔ (action = .use ∧ r = q) ∨ f.Indexes r q := by
  simp only [readEffects, indexReads, Indexes, List.mem_append, List.mem_map, List.mem_singleton,
    Effect.read.injEq, and_true]
  constructor
  · rintro (⟨v, hv, he⟩ | ⟨rfl, rfl⟩)
    · exact Or.inr ⟨v, hv, he.symm⟩
    · exact Or.inl ⟨rfl, rfl⟩
  · rintro (⟨rfl, rfl⟩ | ⟨v, hv, rfl⟩)
    · exact Or.inr ⟨rfl, rfl⟩
    · exact Or.inl ⟨v, hv, rfl⟩

theorem take_not_mem_readEffects {r : Place} {action : Action} :
    .take q ∉ f.readEffects r action := by
  simp [readEffects, indexReads]

theorem use_mem_moveEffects {r : Place} :
    .read q .use ∈ f.moveEffects types r ↔ f.moveAccess types r = .read q ∨ f.Indexes r q := by
  unfold moveEffects moveAccess
  split_ifs
  · rw [List.mem_append, use_mem_readEffects]
    simp
  · rw [use_mem_readEffects]
    simp

theorem take_mem_moveEffects {r : Place} :
    .take q ∈ f.moveEffects types r ↔ f.moveAccess types r = .move q := by
  unfold moveEffects moveAccess
  split_ifs
  · simp [take_not_mem_readEffects, eq_comm]
  · simp [take_not_mem_readEffects]

theorem use_mem_operandEffects {o : Operand} : .read q .use ∈ f.operandEffects types o ↔
    f.operandAccess? types o = some (.read q) ∨ ∃ r, o.place? = some r ∧ f.Indexes r q := by
  cases o with
  | copy r => simp [operandEffects, operandAccess?, Operand.place?, use_mem_readEffects]
  | move r => simp [operandEffects, operandAccess?, Operand.place?, use_mem_moveEffects]
  | ref r k => simp [operandEffects, operandAccess?, Operand.place?, use_mem_readEffects]
  | literal l => simp [operandEffects, operandAccess?, Operand.place?]

theorem take_mem_operandEffects {o : Operand} : .take q ∈ f.operandEffects types o ↔
    f.operandAccess? types o = some (.move q) := by
  cases o with
  | copy r => simp [operandEffects, operandAccess?, take_not_mem_readEffects]
  | move r => simp [operandEffects, operandAccess?, take_mem_moveEffects]
  | ref r k => simp [operandEffects, operandAccess?, take_not_mem_readEffects]
  | literal l => simp [operandEffects, operandAccess?]

/-- The effects of a value: those of a clone, then those of its operands. -/
theorem valueEffects_eq (v : Value) : f.valueEffects types v =
    v.cloned?.toList.flatMap (f.readEffects · .use) ++ v.operands.flatMap (f.operandEffects types) := by
  cases v <;> simp [valueEffects, Value.cloned?, Value.operands]

theorem use_mem_valueEffects {v : Value} : .read q .use ∈ f.valueEffects types v ↔
    (v.cloned? = some q ∨ ∃ o ∈ v.operands, f.operandAccess? types o = some (.read q)) ∨
      ∃ r ∈ v.cloned?.toList ++ v.operands.filterMap Operand.place?, f.Indexes r q := by
  simp only [valueEffects_eq, List.mem_append, List.mem_flatMap, use_mem_readEffects, true_and,
    use_mem_operandEffects, Option.mem_toList, List.mem_filterMap]
  constructor
  · rintro (⟨r, hr, rfl | hq⟩ | ⟨o, ho, hq | ⟨r, hr, hq⟩⟩)
    · exact Or.inl (Or.inl hr)
    · exact Or.inr ⟨r, Or.inl hr, hq⟩
    · exact Or.inl (Or.inr ⟨o, ho, hq⟩)
    · exact Or.inr ⟨r, Or.inr ⟨o, ho, hr⟩, hq⟩
  · rintro ((hr | ⟨o, ho, hq⟩) | ⟨r, hr | ⟨o, ho, hr⟩, hq⟩)
    · exact Or.inl ⟨q, hr, Or.inl rfl⟩
    · exact Or.inr ⟨o, ho, Or.inl hq⟩
    · exact Or.inl ⟨r, hr, Or.inr hq⟩
    · exact Or.inr ⟨o, ho, Or.inr ⟨r, hr, hq⟩⟩

theorem take_mem_valueEffects {v : Value} : .take q ∈ f.valueEffects types v ↔
    ∃ o ∈ v.operands, f.operandAccess? types o = some (.move q) := by
  simp [valueEffects_eq, take_not_mem_readEffects, take_mem_operandEffects]

/-- The indices on the way to a reference are indices of what lies behind it. -/
theorem Indexes.of_carrier {d : Place} (h : f.Indexes d.carrier q) : f.Indexes d q := by
  obtain ⟨v, hv, he⟩ := h
  exact ⟨v, ((List.takeWhile_prefix _).sublist.filterMap _).subset hv, he⟩

theorem use_mem_writeEffects {d : Place} : .read q .use ∈ f.writeEffects d ↔
    (d.hasDeref = true ∧ d.carrier = q) ∨ f.Indexes d q := by
  have hindex : .read q .use ∈ f.indexReads d ↔ f.Indexes d q := by
    simp [indexReads, Indexes, eq_comm]
  rw [writeEffects, List.mem_append, hindex]
  split_ifs with hd
  · rw [use_mem_readEffects]
    constructor
    · rintro (hq | ⟨_, he⟩ | hq)
      · exact Or.inr hq
      · exact Or.inl ⟨hd, he⟩
      · exact Or.inr hq.of_carrier
    · rintro (⟨_, he⟩ | hq)
      · exact Or.inr (Or.inl ⟨rfl, he⟩)
      · exact Or.inl hq
  · simp [hd]

theorem take_not_mem_writeEffects {d : Place} : .take q ∉ f.writeEffects d := by
  unfold writeEffects
  split_ifs <;> simp [indexReads, take_not_mem_readEffects]

/-- A statement uses the values it reads, the variables of indices, and the reference it writes
    through. -/
theorem use_mem_statementEffects {s : Statement} : .read q .use ∈ f.statementEffects types s ↔
    (f.OnlyReads types s q ∨ ∃ r ∈ s.reads, f.Indexes r q) ∨
      ∃ d, s.dest? = some d ∧ ((d.hasDeref = true ∧ d.carrier = q) ∨ f.Indexes d q) := by
  rw [onlyReads_iff]
  cases s with
  | assign d v =>
    simp [statementEffects, use_mem_valueEffects, use_mem_writeEffects, Statement.value?,
      Statement.reads, Statement.dest?]
  | borrow d r k =>
    simp [statementEffects, use_mem_readEffects, use_mem_writeEffects, Statement.value?,
      Statement.reads, Statement.dest?]
  | move d r =>
    simp [statementEffects, use_mem_moveEffects, use_mem_writeEffects, moveAccess_eq_read,
      Statement.value?, Statement.reads, Statement.dest?]
  | drop r =>
    rw [statementEffects]
    split_ifs <;> simp [Statement.value?, Statement.reads, Statement.dest?]
  | eval v =>
    simp [statementEffects, use_mem_valueEffects, Statement.value?, Statement.reads, Statement.dest?]

theorem take_mem_statementEffects {s : Statement} :
    .take q ∈ f.statementEffects types s ↔ f.MovesOut types s q := by
  rw [movesOut_iff]
  cases s with
  | assign d v =>
    simp [statementEffects, Statement.value?, take_mem_valueEffects, take_not_mem_writeEffects]
  | borrow d r k =>
    simp [statementEffects, Statement.value?, take_not_mem_readEffects, take_not_mem_writeEffects]
  | move d r =>
    simp [statementEffects, Statement.value?, take_mem_moveEffects, take_not_mem_writeEffects,
      moveAccess_eq_move]
  | drop r =>
    simp only [statementEffects]
    split_ifs <;> simp [Statement.value?]
  | eval v => simp [statementEffects, Statement.value?, take_mem_valueEffects]

/-- A terminator uses the condition that it reads, the return place, and the variables of their
    indices. -/
theorem use_mem_terminatorEffects {t : Terminator} : .read q .use ∈ f.terminatorEffects types t ↔
    (∃ c yes no, t = .branch c yes no ∧
      (f.operandAccess? types c = some (.read q) ∨ ∃ r, c.place? = some r ∧ f.Indexes r q)) ∨
    (t = .ret ∧ f.writesResult = true ∧ (f.result = q ∨ f.Indexes f.result q)) := by
  cases t with
  | goto n => simp [terminatorEffects]
  | branch c yes no => simp [terminatorEffects, use_mem_operandEffects]
  | ret =>
    rw [terminatorEffects]
    split_ifs with hw <;> simp [hw, use_mem_readEffects]
  | unreachable => simp [terminatorEffects]

theorem take_mem_terminatorEffects {t : Terminator} : .take q ∈ f.terminatorEffects types t ↔
    ∃ yes no, t = .branch (.move q) yes no ∧ f.isMovable types q = true := by
  cases t with
  | goto n => simp [terminatorEffects]
  | branch c yes no => simp [terminatorEffects, take_mem_operandEffects, operandAccess?_eq_move]
  | ret =>
    rw [terminatorEffects]
    split_ifs <;> simp [take_not_mem_readEffects]
  | unreachable => simp [terminatorEffects]

/-- A point uses the values it reads and what it needs for the sake of something else. A branch on a
    value that it moves away does not use it. -/
theorem use_mem_effectsAt : .read q .use ∈ f.effectsAt types p ↔
    (∃ s, f.statementAt? p = some s ∧ f.OnlyReads types s q) ∨
    (∃ c, f.BranchesOn p c ∧ f.operandAccess? types c = some (.read q)) ∨ f.Needs p q := by
  unfold effectsAt
  cases hs : f.statementAt? p with
  | some s =>
    have hplaces : f.placesAt p = s.reads ++ s.dest?.toList := by
      rw [placesAt, hs]
    dsimp only
    rw [use_mem_statementEffects]
    constructor
    · rintro ((hq | ⟨r, hr, hq⟩) | ⟨d, hd, ⟨hderef, rfl⟩ | hq⟩)
      · exact Or.inl ⟨s, rfl, hq⟩
      · exact Or.inr (Or.inr (.index (hplaces ▸ List.mem_append_left _ hr) hq))
      · exact Or.inr (Or.inr (.carrier hs hd hderef))
      · refine Or.inr (Or.inr (.index (r := d) ?_ hq))
        exact hplaces ▸ List.mem_append_right _ (Option.mem_toList.mpr hd)
    · rintro (⟨s', he, hq⟩ | ⟨c, ⟨hnone, _⟩, _⟩ | hq)
      · cases he
        exact Or.inl (Or.inl hq)
      · cases hs.symm.trans hnone
      · cases hq with
        | index hr hq =>
          rw [hplaces] at hr
          rcases List.mem_append.mp hr with hr | hr
          · exact Or.inl (Or.inr ⟨_, hr, hq⟩)
          · exact Or.inr ⟨_, Option.mem_toList.mp hr, Or.inr hq⟩
        | carrier hs' hd hderef =>
          cases hs.symm.trans hs'
          exact Or.inr ⟨_, hd, Or.inl ⟨hderef, rfl⟩⟩
        | result hnone => cases hs.symm.trans hnone
  | none =>
    dsimp only
    rw [use_mem_terminatorEffects]
    constructor
    · rintro (⟨c, yes, no, ht, hq | ⟨r, hr, hq⟩⟩ | ⟨ht, hw, rfl | hq⟩)
      · exact Or.inr (Or.inl ⟨c, ⟨hs, yes, no, ht⟩, hq⟩)
      · refine Or.inr (Or.inr (.index (r := r) ?_ hq))
        rw [placesAt, hs, ht]
        exact Option.mem_toList.mpr hr
      · exact Or.inr (Or.inr (.result hs ht hw))
      · refine Or.inr (Or.inr (.index (r := f.result) ?_ hq))
        rw [placesAt, hs, ht]
        exact (if_pos hw).symm ▸ List.mem_singleton_self _
    · rintro (⟨s', he, _⟩ | ⟨c, ⟨_, yes, no, ht⟩, hq⟩ | hq)
      · cases he
      · exact Or.inl ⟨c, yes, no, ht, Or.inl hq⟩
      · cases hq with
        | index hr hq =>
          rw [placesAt, hs] at hr
          cases ht : (f.block p.block).terminator with
          | branch c yes no =>
            rw [ht] at hr
            exact Or.inl ⟨c, yes, no, rfl, Or.inr ⟨_, Option.mem_toList.mp hr, hq⟩⟩
          | ret =>
            rw [ht] at hr
            dsimp only at hr
            split_ifs at hr with hw
            · cases List.mem_singleton.mp hr
              exact Or.inr ⟨rfl, hw, Or.inr hq⟩
            · cases hr
          | goto n =>
            rw [ht] at hr
            cases hr
          | unreachable =>
            rw [ht] at hr
            cases hr
        | carrier hs' => cases hs.symm.trans hs'
        | result _ ht hw => exact Or.inr ⟨ht, hw, Or.inl rfl⟩

theorem take_mem_effectsAt : .take q ∈ f.effectsAt types p ↔
    f.MovesOutAt types p q ∨ (f.BranchesOn p (.move q) ∧ f.isMovable types q = true) := by
  unfold effectsAt MovesOutAt BranchesOn
  cases hs : f.statementAt? p with
  | some s =>
    dsimp only
    rw [take_mem_statementEffects]
    simp
  | none =>
    dsimp only
    rw [take_mem_terminatorEffects]
    simp

/-- A recorded move is an effect of its point. -/
theorem take_of_mem_moves {cap : Nat} (h : (p, q) ∈ (f.analyse types cap).moves.moves) :
    .take q ∈ f.effectsAt types p := by
  obtain ⟨⟨pt, m, es⟩, hrow, h⟩ := List.mem_flatMap.mp h
  obtain ⟨b, _, hrow⟩ := List.mem_flatMap.mp (show (pt, m, es) ∈ f.moveRows types cap from hrow)
  obtain ⟨_, _, _, _, rfl⟩ := mem_moveRowsOf.mp hrow
  obtain ⟨e, he, h⟩ := List.mem_filterMap.mp h
  cases e with
  | take r =>
    cases h
    exact he
  | read r action => cases h
  | release r => cases h
  | fill r => cases h

end Function

/-! ## 3. What is reported -/

/-- **Which of the moves and uses that the pass over ownership finds are reported.** Let a loan that is
    in use at a point be in the way of the place. A value that a statement moves away is reported. One
    that a branch moves away is reported as a read, so only if the loan is exclusive. A use is reported
    against an exclusive loan if it reads the value of the place itself; what is only needed for the
    sake of something else is not. -/
theorem tracked_accesses_reported {d : Draft} {f : Function} {types : TypeTable}
    (hv : d.validate types = .ok f) (cap : Nat) {p : Point} (hp : f.Reaches p) {x : Loan}
    (hx : x ∈ (f.analyse types cap).loans.activeBefore p) {q : Place} (ht : x.isTouched q = true) :
    ((p, q) ∈ (f.analyse types cap).moves.moves →
      (f.MovesOutAt types p q ∧ .moved p q x ∈ (f.analyse types cap).conflicts) ∨
      (f.BranchesOn p (.move q) ∧ .moved p q x ∉ (f.analyse types cap).conflicts ∧
        (.read p q x ∈ (f.analyse types cap).conflicts ↔ x.kind = .unique))) ∧
    (.read q .use ∈ f.effectsAt types p → x.kind = .unique →
      (f.ReadsAt types p q ∧ .read p q x ∈ (f.analyse types cap).conflicts) ∨
      (f.Needs p q ∧ ¬ f.ReadsAt types p q ∧ .read p q x ∉ (f.analyse types cap).conflicts)) := by
  have hf := Draft.wellFormed_of_validate hv
  have hmoved : .moved p q x ∈ (f.analyse types cap).conflicts ↔ f.MovesOutAt types p q := by
    rw [mem_conflicts_iff hf rfl hp hx, Function.move_mem_accessesAt]
    exact and_iff_left ht
  have hread : .read p q x ∈ (f.analyse types cap).conflicts ↔
      f.ReadsAt types p q ∧ x.kind = .unique := by
    rw [mem_conflicts_iff hf rfl hp hx, Function.read_mem_accessesAt]
    exact and_congr_right fun _ => and_iff_right ht
  constructor
  · intro h
    rcases Function.take_mem_effectsAt.mp (Function.take_of_mem_moves h) with hs | ⟨hb, _⟩
    · exact Or.inl ⟨hs, hmoved.mpr hs⟩
    · have hreads : f.ReadsAt types p q := Or.inr ⟨_, hb, rfl⟩
      refine Or.inr ⟨hb, fun h => ?_, hread.trans (and_iff_right hreads)⟩
      obtain ⟨s, hs, _⟩ := hmoved.mp h
      cases hb.1.symm.trans hs
  · intro h hkind
    by_cases hreads : f.ReadsAt types p q
    · exact Or.inl ⟨hreads, hread.mpr ⟨hreads, hkind⟩⟩
    · refine Or.inr ⟨?_, hreads, fun h => hreads (hread.mp h).1⟩
      rcases Function.use_mem_effectsAt.mp h with hs | ⟨c, hb, hc⟩ | hneeds
      · exact absurd (Or.inl hs) hreads
      · exact absurd (Or.inr ⟨c, hb, Function.place?_of_operandAccess? hc⟩) hreads
      · exact hneeds

/-- The types of the examples below. -/
def spendTypes : TypeTable where
  defs := [⟨"Int", .scalar⟩, ⟨"Vec", .owned⟩, ⟨"[Int]", .array 1⟩, ⟨"&Vec", .ref false 2⟩,
    ⟨"&mut Int", .ref true 1⟩]

/-- The local variable of the name, all of it. -/
def wholeLocal (name : String) : Place := ⟨⟨.localVar, name⟩, []⟩

/-- The element of the parameter `a` at the index that `i` holds. -/
def elementAt : Place := ⟨⟨.param, "a"⟩, [.index { kind := .any, var := some "i" }]⟩

/-- While `i`, `w` and `x` are on loan, `i` is read, once as an index and once itself, and `w` and `x`
    are moved away, the latter by a branch. -/
def spend : Function where
  name := "spend"
  params := [⟨⟨.param, "a"⟩, []⟩]
  result := ⟨⟨.result, "_ret"⟩, []⟩
  locals := [("a", ⟨⟨.param, "a"⟩, some 3⟩), ("x", ⟨⟨.localVar, "x"⟩, some 2⟩),
    ("w", ⟨⟨.localVar, "w"⟩, some 2⟩), ("i", ⟨⟨.localVar, "i"⟩, some 1⟩),
    ("y", ⟨⟨.localVar, "y"⟩, some 1⟩), ("r", ⟨⟨.localVar, "r"⟩, some 4⟩),
    ("s", ⟨⟨.localVar, "s"⟩, some 4⟩), ("t", ⟨⟨.localVar, "t"⟩, some 5⟩),
    ("_ret", ⟨⟨.result, "_ret"⟩, some 1⟩)]
  blocks := [
    ⟨[.assign (wholeLocal "x") (.alloc "Vec"), .assign (wholeLocal "w") (.alloc "Vec"),
      .assign (wholeLocal "i") (.const (.int 0)), .borrow (wholeLocal "r") (wholeLocal "x") .shared,
      .borrow (wholeLocal "s") (wholeLocal "w") .shared,
      .borrow (wholeLocal "t") (wholeLocal "i") .unique,
      .assign (wholeLocal "y") (.use (.copy elementAt)),
      .assign (wholeLocal "y") (.use (.copy (wholeLocal "i"))),
      .eval (.call "take" [.move (wholeLocal "w")])], .branch (.move (wholeLocal "x")) 1 2⟩,
    ⟨[.eval (.call "use" [.copy (wholeLocal "r"), .copy (wholeLocal "s"), .copy (wholeLocal "t")])],
      .ret⟩,
    ⟨[], .ret⟩]

/-- The loans of `x`, `w` and `i` in `spend`. -/
def spendLoan (n : Nat) (lent : String) (kind : LoanKind) (holder : String) : Loan :=
  ⟨n, wholeLocal lent, kind, ⟨0, n + 3⟩, some holder, n⟩

/-- In `spend` the move of `w` and the copy of `i` are reported. The move of `x` by the branch is not,
    since its loan is shared, and neither is the index `i`. -/
theorem tracked_accesses_reported_spend :
    spend.draft.validate spendTypes = .ok spend ∧
      .moved ⟨0, 8⟩ (wholeLocal "w") (spendLoan 1 "w" .shared "s") ∈
        (spend.analyse spendTypes 20).conflicts ∧
      .read ⟨0, 7⟩ (wholeLocal "i") (spendLoan 2 "i" .unique "t") ∈
        (spend.analyse spendTypes 20).conflicts ∧
      (.moved ⟨0, 9⟩ (wholeLocal "x") (spendLoan 0 "x" .shared "r") ∉
        (spend.analyse spendTypes 20).conflicts ∧
      .read ⟨0, 9⟩ (wholeLocal "x") (spendLoan 0 "x" .shared "r") ∉
        (spend.analyse spendTypes 20).conflicts) ∧
      .read ⟨0, 6⟩ (wholeLocal "i") (spendLoan 2 "i" .unique "t") ∉
        (spend.analyse spendTypes 20).conflicts := by
  have hreach : ∀ k ≤ 9, spend.Reaches ⟨0, k⟩ := fun k hk => Function.Reaches.within ⟨[], .start⟩ hk
  have hreported := @tracked_accesses_reported spend.draft spend spendTypes rfl 20
  have hw := (@hreported _ (hreach 8 (by decide)) (spendLoan 1 "w" .shared "s") (by decide +kernel)
    (wholeLocal "w") (by decide)).1 (by decide +kernel)
  have hi := (@hreported _ (hreach 7 (by decide)) (spendLoan 2 "i" .unique "t") (by decide +kernel)
    (wholeLocal "i") (by decide)).2 (by decide +kernel) rfl
  have hx := (@hreported _ (hreach 9 (by decide)) (spendLoan 0 "x" .shared "r") (by decide +kernel)
    (wholeLocal "x") (by decide)).1 (by decide +kernel)
  have hindex := (@hreported _ (hreach 6 (by decide)) (spendLoan 2 "i" .unique "t")
    (by decide +kernel) (wholeLocal "i") (by decide)).2 (by decide +kernel) rfl
  refine ⟨rfl, ?_, ?_, ?_, ?_⟩
  · rcases hw with ⟨_, h⟩ | ⟨⟨hnone, _⟩, _⟩
    · exact h
    · cases hnone
  · rcases hi with ⟨_, h⟩ | ⟨_, hno, _⟩
    · exact h
    · exact absurd (Or.inl ⟨_, rfl, Or.inl ⟨_, rfl, Or.inr List.mem_cons_self⟩⟩) hno
  · rcases hx with ⟨⟨_, hs, _⟩, _⟩ | ⟨_, hno, hread⟩
    · cases hs
    · refine ⟨hno, fun h => ?_⟩
      cases hread.mp h
  · rcases hindex with ⟨⟨_, hs, hreads⟩ | ⟨_, ⟨hnone, _⟩, _⟩, _⟩ | ⟨_, _, h⟩
    · cases hs
      -- the statement copies the element, not the index
      rcases Function.onlyReads_iff.mp hreads with ⟨_, hv, hq | ⟨o, ho, hq⟩⟩ | ⟨_, hs, _⟩
      · cases hv
        cases hq
      · cases hv
        cases List.mem_singleton.mp ho
        cases hq
      · cases hs
    · cases hnone
    · exact h

/-- While `x` is on loan to `r`, a branch moves it away, and `r` is used behind the branch. -/
def fork : Function where
  name := "fork"
  params := []
  result := ⟨⟨.result, "_ret"⟩, []⟩
  locals := [("x", ⟨⟨.localVar, "x"⟩, some 2⟩), ("r", ⟨⟨.localVar, "r"⟩, some 4⟩),
    ("_ret", ⟨⟨.result, "_ret"⟩, some 1⟩)]
  blocks := [
    ⟨[.assign (wholeLocal "x") (.alloc "Vec"), .borrow (wholeLocal "r") (wholeLocal "x") .shared],
      .branch (.move (wholeLocal "x")) 1 2⟩,
    ⟨[.eval (.call "use" [.copy (wholeLocal "r")])], .ret⟩,
    ⟨[], .ret⟩]

/-- While `i` is on exclusive loan to `r`, it is read as an index, and `r` is used after that. -/
def probe : Function where
  name := "probe"
  params := [⟨⟨.param, "a"⟩, []⟩]
  result := ⟨⟨.result, "_ret"⟩, []⟩
  locals := [("a", ⟨⟨.param, "a"⟩, some 3⟩), ("i", ⟨⟨.localVar, "i"⟩, some 1⟩),
    ("y", ⟨⟨.localVar, "y"⟩, some 1⟩), ("r", ⟨⟨.localVar, "r"⟩, some 5⟩),
    ("_ret", ⟨⟨.result, "_ret"⟩, some 1⟩)]
  blocks := [
    ⟨[.assign (wholeLocal "i") (.const (.int 0)), .borrow (wholeLocal "r") (wholeLocal "i") .unique,
      .assign (wholeLocal "y") (.use (.copy elementAt)),
      .eval (.call "use" [.copy (wholeLocal "r")])], .ret⟩]

/-- **A good verdict does not exclude that a value is moved away or read while it is on loan**: a branch
    moves a value away while a reference to it is in use, and a variable is read as an index while a
    reference in use may write it. -/
theorem fork_probe_unreported :
    (fork.draft.validate spendTypes = .ok fork ∧ (fork.check spendTypes {}).ok = true ∧
      fork.Reaches ⟨0, 2⟩ ∧
      (⟨0, 2⟩, wholeLocal "x") ∈ (fork.analyse spendTypes 10000).moves.moves ∧
      ∃ l ∈ (fork.analyse spendTypes 10000).loans.activeBefore ⟨0, 2⟩,
        l.isTouched (wholeLocal "x") = true) ∧
    probe.draft.validate spendTypes = .ok probe ∧ (probe.check spendTypes {}).ok = true ∧
      probe.Reaches ⟨0, 2⟩ ∧ probe.Indexes elementAt (wholeLocal "i") ∧
      .read (wholeLocal "i") .use ∈ probe.effectsAt spendTypes ⟨0, 2⟩ ∧
      ∃ l ∈ (probe.analyse spendTypes 10000).loans.activeBefore ⟨0, 2⟩,
        l.isTouched (wholeLocal "i") = true ∧ l.kind = .unique := by
  have hfork : fork.Reaches ⟨0, 2⟩ := Function.Reaches.within ⟨[], .start⟩ (by decide)
  have hprobe : probe.Reaches ⟨0, 2⟩ := Function.Reaches.within ⟨[], .start⟩ (by decide)
  refine ⟨⟨rfl, by decide +kernel, hfork, by decide +kernel, by decide +kernel⟩, rfl,
    by decide +kernel, hprobe, ⟨"i", by decide, rfl⟩, by decide +kernel, by decide +kernel⟩

end Ownership
