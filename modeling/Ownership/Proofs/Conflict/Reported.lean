import Ownership.Proofs.Conflict.Access

/-!
# What the detector looks at

The detector goes through the accesses of the points that are reached, each against the loans in use
there. As far as reads and moves are concerned it reports what it looks at, and nothing else. It looks at
every value that a statement moves away, and at every place whose value is read by itself, by a statement
or as the condition of a branch.

* `Conflict.access?`, `Access.Meets`: conflicts about reads and moves, and when an access raises one;
* `mem_accessesConflicts_iff`, `mem_pointsConflicts_iff`: no loan that an access makes, and no pair that
  was reported before, is in the way of such a conflict;
* `mem_conflicts_byAccess`: which conflicts are found there;
* `mem_conflicts_iff`: the conflicts about reads and moves are those of the accesses of reached points;
* `read_mem_accessesAt`, `move_mem_accessesAt`: what these accesses are.
-/

namespace Ownership

/-! ## 1. What happens at a point -/

namespace Function

variable (f : Function) (types : TypeTable)

/-- The block of the point ends with a branch on the operand, and the point is its end. -/
def BranchesOn (p : Point) (c : Operand) : Prop :=
  f.statementAt? p = none ∧ ∃ yes no, (f.block p.block).terminator = .branch c yes no

/-- The statement at the point moves the value of the place away. -/
def MovesOutAt (p : Point) (q : Place) : Prop :=
  ∃ s, f.statementAt? p = some s ∧ f.MovesOut types s q

/-- The value of the place itself is read at the point: the statement there leaves it as it is, or a
    branch asks for it. -/
def ReadsAt (p : Point) (q : Place) : Prop :=
  (∃ s, f.statementAt? p = some s ∧ f.OnlyReads types s q) ∨
    ∃ c, f.BranchesOn p c ∧ c.place? = some q

/-- The accesses of one point: those of its statement, or of the terminator. -/
def accessesAt (facts : LoanFacts) (p : Point) : List Access :=
  match f.statementAt? p with
  | some s => f.accesses types (facts.issued p) s
  | none => (f.block p.block).terminator.accesses

end Function

/-! ## 2. The detector reports what it looks at -/

/-- What a conflict about a read or a move is about. -/
def Conflict.access? : Conflict → Option (Point × Access × Loan)
  | .read pt p l => some (pt, .read p, l)
  | .moved pt p l => some (pt, .move p, l)
  | _ => none

/-- The loan is in the way of a read, or of a move. -/
def Access.Meets : Access → Loan → Prop
  | .read p, l => l.isTouched p = true ∧ l.kind = .unique
  | .move p, l => l.isTouched p = true
  | .borrow .., _ | .write _, _ => False

section Reported

variable {facts : LoanFacts} {c : Conflict} {p : Point} {a : Access} {x : Loan}
  (hc : c.access? = some (p, a, x)) (hx : x ∈ facts.activeBefore p)

include hc hx

/-- One access raises the conflicts with the loans in its way. -/
theorem mem_accessConflicts_iff {pt : Point} {here : List Loan} {seen : Pairs} {b : Access} :
    c ∈ (accessConflicts facts pt here seen b).1 ↔ pt = p ∧ b = a ∧ a.Meets x := by
  have hnone : ∀ {cs : List Conflict}, (∀ e ∈ cs, e.access? = none) → c ∉ cs := fun hcs hmem =>
    Option.some_ne_none _ (hc.symm.trans (hcs c hmem))
  cases b with
  | read q =>
    constructor
    · intro h
      obtain ⟨l, hl, rfl⟩ := List.mem_map.mp h
      cases hc
      obtain ⟨_, hmeets⟩ := List.mem_filter.mp hl
      rw [Bool.and_eq_true, beq_iff_eq] at hmeets
      exact ⟨rfl, rfl, hmeets⟩
    · rintro ⟨rfl, rfl, htouched, hkind⟩
      have he : c = .read pt q x := by
        cases c <;> cases hc
        rfl
      rw [he]
      refine List.mem_map_of_mem (List.mem_filter.mpr ⟨List.mem_append_left _ hx, ?_⟩)
      rw [Bool.and_eq_true, beq_iff_eq]
      exact ⟨htouched, hkind⟩
  | move q =>
    constructor
    · intro h
      obtain ⟨l, hl, rfl⟩ := List.mem_map.mp h
      cases hc
      exact ⟨rfl, rfl, (List.mem_filter.mp hl).2⟩
    · rintro ⟨rfl, rfl, htouched⟩
      have he : c = .moved pt q x := by
        cases c <;> cases hc
        rfl
      rw [he]
      exact List.mem_map_of_mem (List.mem_filter.mpr ⟨List.mem_append_left _ hx, htouched⟩)
  | borrow q new =>
    refine iff_of_false (hnone fun e he => ?_) ?_
    · obtain ⟨old, _, rfl, _⟩ := of_mem_borrowConflicts he
      rfl
    · rintro ⟨_, rfl, hmeets⟩
      exact hmeets
  | write q =>
    refine iff_of_false (hnone fun e he => ?_) ?_
    · obtain ⟨l, _, rfl⟩ := List.mem_map.mp he
      rfl
    · rintro ⟨_, rfl, hmeets⟩
      exact hmeets

/-- The accesses of a point, whatever loans they make on the way. -/
theorem mem_accessesConflicts_iff {pt : Point} {as : List Access} {here : List Loan} {seen : Pairs} :
    c ∈ (accessesConflicts facts pt here as seen).1 ↔ pt = p ∧ a ∈ as ∧ a.Meets x := by
  induction as generalizing here seen with
  | nil => exact iff_of_false List.not_mem_nil fun h => absurd h.2.1 List.not_mem_nil
  | cons b as ih =>
    rw [accessesConflicts_cons.1, List.mem_append, mem_accessConflicts_iff hc hx, ih, List.mem_cons,
      eq_comm (a := a)]
    tauto

theorem mem_pointsConflicts_iff {rows : List (Point × List Access)} {seen : Pairs} :
    c ∈ (pointsConflicts facts rows seen).1 ↔ ∃ as, (p, as) ∈ rows ∧ a ∈ as ∧ a.Meets x := by
  induction rows generalizing seen with
  | nil =>
    refine iff_of_false List.not_mem_nil ?_
    rintro ⟨as, has, _⟩
    cases has
  | cons r rows ih =>
    obtain ⟨pt, bs⟩ := r
    rw [pointsConflicts_cons.1, List.mem_append, mem_accessesConflicts_iff hc hx, ih]
    constructor
    · rintro (⟨rfl, ha, hmeets⟩ | ⟨as, has, ha, hmeets⟩)
      · exact ⟨bs, List.mem_cons_self, ha, hmeets⟩
      · exact ⟨as, List.mem_cons_of_mem _ has, ha, hmeets⟩
    · rintro ⟨as, has, ha, hmeets⟩
      rcases List.mem_cons.mp has with he | has
      · cases he
        exact Or.inl ⟨rfl, ha, hmeets⟩
      · exact Or.inr ⟨as, has, ha, hmeets⟩

end Reported

/-- The accesses that are looked at for a point that is reached are its own. -/
theorem Function.mem_accessPoints_iff {f : Function} {types : TypeTable} (hf : f.WellFormed)
    {facts : LoanFacts} {p : Point} (hp : f.Reaches p) {as : List Access} :
    (p, as) ∈ f.accessPoints f.graph types facts ↔ as = f.accessesAt types facts p := by
  obtain ⟨ps, hr⟩ := hp
  have hb := hr.mem_reachable hf
  have hstmt := (hr.mem_order hf).2
  constructor
  · intro h
    obtain ⟨b, _, h⟩ := List.mem_flatMap.mp h
    rcases List.mem_append.mp h with h | h
    · obtain ⟨⟨s, pt⟩, hs, he⟩ := List.mem_map.mp h
      cases he
      rw [accessesAt, (mem_statementsOf.mp hs).2]
    · cases List.mem_singleton.mp h
      have hnone : f.statementAt? (f.exitOf b) = none := List.getElem?_eq_none (Nat.le_refl _)
      rw [accessesAt, hnone]
      rfl
  · rintro rfl
    unfold accessesAt
    cases hs : f.statementAt? p with
    | some s => exact mem_accessPoints hb hs
    | none =>
      -- a point without a statement is the end of its block
      have hend : p = f.exitOf p.block := by
        have hlen : (f.block p.block).statements.length ≤ p.stmt := List.getElem?_eq_none_iff.mp hs
        exact congrArg (Point.mk p.block) (Nat.le_antisymm hstmt hlen)
      refine List.mem_flatMap.mpr ⟨p.block, hb, List.mem_append_right _ (List.mem_singleton.mpr ?_)⟩
      rw [← hend]

/-- The conflict was found at an access. -/
def Conflict.byAccess : Conflict → Bool
  | .borrowed .. | .moved .. | .written .. | .read .. => true
  | .missing _ | .escaping .. | .dropped .. => false

theorem mem_conflicts_byAccess {f : Function} {types : TypeTable} {cap : Nat} {c : Conflict}
    (hc : c.byAccess = true) :
    c ∈ (f.analyse types cap).conflicts ↔ c ∈ (pointsConflicts (f.analyse types cap).loans
      (f.accessPoints f.graph types (f.analyse types cap).loans) []).1 := by
  have hmissing : c ∉ (f.analyse types cap).moves.events.map Conflict.missing := by
    intro h
    obtain ⟨e, _, rfl⟩ := List.mem_map.mp h
    cases hc
  have hexits : c ∉ (f.analyse types cap).frames.flatMap fun fr =>
      fr.exits.flatMap (exitConflicts (f.analyse types cap).loans fr) := by
    intro h
    obtain ⟨fr, _, h⟩ := List.mem_flatMap.mp h
    obtain ⟨pt, _, h⟩ := List.mem_flatMap.mp h
    unfold exitConflicts at h
    split at h
    · obtain ⟨l, _, rfl⟩ := List.mem_map.mp h
      cases hc
    · obtain ⟨l, _, rfl⟩ := List.mem_map.mp h
      cases hc
  constructor
  · intro h
    rcases List.mem_append.mp h with h | h
    · exact (List.mem_append.mp h).resolve_left hmissing
    · exact absurd h hexits
  · exact fun h => List.mem_append_left _ (List.mem_append_right _ h)

/-- **Every access of a reached point that meets a loan in use is reported**, and nothing else is
    reported as a read or a move. -/
theorem mem_conflicts_iff {f : Function} {types : TypeTable} (hf : f.WellFormed) {cap : Nat}
    {c : Conflict} {p : Point} {a : Access} {x : Loan} (hc : c.access? = some (p, a, x))
    (hp : f.Reaches p) (hx : x ∈ (f.analyse types cap).loans.activeBefore p) :
    c ∈ (f.analyse types cap).conflicts ↔
      a ∈ f.accessesAt types (f.analyse types cap).loans p ∧ a.Meets x := by
  have hby : c.byAccess = true := by
    unfold Conflict.access? at hc
    split at hc
    · rfl
    · rfl
    · cases hc
  rw [mem_conflicts_byAccess hby, mem_pointsConflicts_iff hc hx]
  simp only [Function.mem_accessPoints_iff hf hp, exists_eq_left]

/-! ## 3. The accesses of a point -/

namespace Function

variable {f : Function} {types : TypeTable} {p : Point} {q : Place}

theorem moveAccess_eq_read {r : Place} :
    f.moveAccess types r = .read q ↔ r = q ∧ f.isMovable types q = false := by
  unfold moveAccess
  split_ifs with hm
  · refine iff_of_false (by rintro ⟨⟩) ?_
    rintro ⟨rfl, hm'⟩
    cases hm.symm.trans hm'
  · rw [Bool.not_eq_true] at hm
    rw [Access.read.injEq]
    exact ⟨fun h => ⟨h, h ▸ hm⟩, And.left⟩

theorem moveAccess_eq_move {r : Place} :
    f.moveAccess types r = .move q ↔ r = q ∧ f.isMovable types q = true := by
  unfold moveAccess
  split_ifs with hm
  · rw [Access.move.injEq]
    exact ⟨fun h => ⟨h, h ▸ hm⟩, And.left⟩
  · refine iff_of_false (by rintro ⟨⟩) ?_
    rintro ⟨rfl, hm'⟩
    exact hm hm'

theorem operandAccess?_eq_read {o : Operand} : f.operandAccess? types o = some (.read q) ↔
    o = .copy q ∨ (o = .move q ∧ f.isMovable types q = false) := by
  cases o <;> simp [operandAccess?, moveAccess_eq_read]

theorem operandAccess?_eq_move {o : Operand} : f.operandAccess? types o = some (.move q) ↔
    o = .move q ∧ f.isMovable types q = true := by
  cases o <;> simp [operandAccess?, moveAccess_eq_move]

theorem place?_of_operandAccess? {o : Operand} (h : f.operandAccess? types o = some (.read q)) :
    o.place? = some q := by
  rcases operandAccess?_eq_read.mp h with rfl | ⟨rfl, _⟩ <;> rfl

/-- What a statement only reads, by the accesses of the operands. -/
theorem onlyReads_iff {s : Statement} : f.OnlyReads types s q ↔
    (∃ v, s.value? = some v ∧
      (v.cloned? = some q ∨ ∃ o ∈ v.operands, f.operandAccess? types o = some (.read q))) ∨
    ∃ d, s = .move d q ∧ f.isMovable types q = false := by
  simp only [operandAccess?_eq_read]
  constructor
  · rintro (⟨v, hv, hq | hq⟩ | ⟨⟨d, rfl⟩ | ⟨v, hv, hq⟩, hm⟩)
    · exact Or.inl ⟨v, hv, Or.inl hq⟩
    · exact Or.inl ⟨v, hv, Or.inr ⟨_, hq, Or.inl rfl⟩⟩
    · exact Or.inr ⟨d, rfl, hm⟩
    · exact Or.inl ⟨v, hv, Or.inr ⟨_, hq, Or.inr ⟨rfl, hm⟩⟩⟩
  · rintro (⟨v, hv, hq | ⟨o, ho, rfl | ⟨rfl, hm⟩⟩⟩ | ⟨d, rfl, hm⟩)
    · exact Or.inl ⟨v, hv, Or.inl hq⟩
    · exact Or.inl ⟨v, hv, Or.inr ho⟩
    · exact Or.inr ⟨Or.inr ⟨v, hv, ho⟩, hm⟩
    · exact Or.inr ⟨Or.inl ⟨d, rfl⟩, hm⟩

/-- What a statement moves away, by the accesses of the operands. -/
theorem movesOut_iff {s : Statement} : f.MovesOut types s q ↔
    (∃ v, s.value? = some v ∧ ∃ o ∈ v.operands, f.operandAccess? types o = some (.move q)) ∨
    ∃ d, s = .move d q ∧ f.isMovable types q = true := by
  simp only [operandAccess?_eq_move]
  constructor
  · rintro ⟨⟨d, rfl⟩ | ⟨v, hv, hq⟩, hm⟩
    · exact Or.inr ⟨d, rfl, hm⟩
    · exact Or.inl ⟨v, hv, _, hq, rfl, hm⟩
  · rintro (⟨v, hv, o, ho, rfl, hm⟩ | ⟨d, rfl, hm⟩)
    · exact ⟨Or.inr ⟨v, hv, ho⟩, hm⟩
    · exact ⟨Or.inl ⟨d, rfl⟩, hm⟩

/-- An access of operands that makes no loan is the access of one of them. -/
theorem exists_operand_of_mem {ops : List Operand} {a : Access} (hloan : a.loan? = none) :
    ∀ {ls : List Loan}, a ∈ f.operandAccesses types ops ls →
      ∃ o ∈ ops, f.operandAccess? types o = some a := by
  induction ops with
  | nil =>
    intro ls h
    cases h
  | cons c ops ih =>
    intro ls h
    have hlater : ∀ {ls : List Loan}, a ∈ f.operandAccesses types ops ls →
        ∃ o ∈ c :: ops, f.operandAccess? types o = some a := by
      intro ls h
      obtain ⟨o, ho, he⟩ := ih h
      exact ⟨o, List.mem_cons_of_mem _ ho, he⟩
    cases c with
    | copy r =>
      rcases List.mem_cons.mp h with rfl | h
      · exact ⟨_, List.mem_cons_self, rfl⟩
      · exact hlater h
    | move r =>
      rcases List.mem_cons.mp h with rfl | h
      · exact ⟨_, List.mem_cons_self, rfl⟩
      · exact hlater h
    | literal v => exact hlater h
    | ref r k =>
      cases ls with
      | nil => exact hlater h
      | cons l ls =>
        rcases List.mem_cons.mp h with rfl | h
        · cases hloan
        · exact hlater h

/-- An access of a value that makes no loan is that of a clone or of an operand. -/
theorem mem_valueAccesses {v : Value} {issued : List Loan} {a : Access} (hloan : a.loan? = none)
    (h : a ∈ f.valueAccesses types v issued) :
    (∃ r, v.cloned? = some r ∧ a = .read r) ∨ ∃ o ∈ v.operands, f.operandAccess? types o = some a := by
  rcases List.mem_append.mp h with h | h
  · obtain ⟨r, hr, rfl⟩ := List.mem_map.mp h
    exact Or.inl ⟨r, Option.mem_toList.mp hr, rfl⟩
  · exact Or.inr (exists_operand_of_mem hloan h)

/-- An access of a statement that neither makes a loan nor writes is that of its value, or of the place
    it moves. -/
theorem mem_accesses {s : Statement} {issued : List Loan} {a : Access} (hloan : a.loan? = none)
    (hwrite : ∀ d, a ≠ .write d) (h : a ∈ f.accesses types issued s) :
    (∃ v, s.value? = some v ∧ a ∈ f.valueAccesses types v issued) ∨
      ∃ d r, s = .move d r ∧ f.moveAccess types r = a := by
  cases s with
  | assign d v =>
    rcases List.mem_append.mp h with h | h
    · exact Or.inl ⟨v, rfl, h⟩
    · exact absurd (List.mem_singleton.mp h) (hwrite d)
  | eval v => exact Or.inl ⟨v, rfl, h⟩
  | borrow d r k =>
    rcases List.mem_append.mp h with h | h
    · obtain ⟨l, _, rfl⟩ := List.mem_map.mp h
      cases hloan
    · exact absurd (List.mem_singleton.mp h) (hwrite d)
  | move d r =>
    rcases List.mem_cons.mp h with h | h
    · exact Or.inr ⟨d, r, rfl, h.symm⟩
    · exact absurd (List.mem_singleton.mp h) (hwrite d)
  | drop r => cases h

theorem read_mem_accesses_iff {s : Statement} {issued : List Loan} :
    .read q ∈ f.accesses types issued s ↔ f.OnlyReads types s q := by
  refine ⟨fun h => onlyReads_iff.mpr ?_, fun h => read_mem_accesses h issued⟩
  rcases mem_accesses rfl (by rintro d ⟨⟩) h with ⟨v, hv, hvalue⟩ | ⟨d, r, rfl, hmove⟩
  · rcases mem_valueAccesses rfl hvalue with ⟨r, hr, he⟩ | ho
    · cases he
      exact Or.inl ⟨v, hv, Or.inl hr⟩
    · exact Or.inl ⟨v, hv, Or.inr ho⟩
  · obtain ⟨rfl, hm⟩ := moveAccess_eq_read.mp hmove
    exact Or.inr ⟨d, rfl, hm⟩

theorem move_mem_accesses_iff {s : Statement} {issued : List Loan} :
    .move q ∈ f.accesses types issued s ↔ f.MovesOut types s q := by
  refine ⟨fun h => movesOut_iff.mpr ?_, fun h => move_mem_accesses h issued⟩
  rcases mem_accesses rfl (by rintro d ⟨⟩) h with ⟨v, hv, hvalue⟩ | ⟨d, r, rfl, hmove⟩
  · rcases mem_valueAccesses rfl hvalue with ⟨r, _, he⟩ | ho
    · cases he
    · exact Or.inl ⟨v, hv, ho⟩
  · obtain ⟨rfl, hm⟩ := moveAccess_eq_move.mp hmove
    exact Or.inr ⟨d, rfl, hm⟩

/-- The reads that are looked at are the reads of values, conditions of branches included. -/
theorem read_mem_accessesAt {facts : LoanFacts} :
    .read q ∈ f.accessesAt types facts p ↔ f.ReadsAt types p q := by
  unfold accessesAt ReadsAt BranchesOn
  cases hs : f.statementAt? p with
  | some s =>
    rw [read_mem_accesses_iff]
    simp
  | none => cases (f.block p.block).terminator <;> simp [Terminator.accesses]

/-- The moves that are looked at are those of statements. -/
theorem move_mem_accessesAt {facts : LoanFacts} :
    .move q ∈ f.accessesAt types facts p ↔ f.MovesOutAt types p q := by
  unfold accessesAt MovesOutAt
  cases hs : f.statementAt? p with
  | some s =>
    rw [move_mem_accesses_iff]
    simp
  | none => cases (f.block p.block).terminator <;> simp [Terminator.accesses]

end Function

end Ownership
