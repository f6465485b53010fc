import Ownership.Proofs.Conflict.Reported

/-!
# Which pairs of loans are reported

A new loan is set against the loans in use and against those made earlier in its statement. A pair that
was reported before is left out, so not every clash is a conflict of its own; but every pair that
clashes somewhere is reported somewhere, and nothing else is.

* `Loan.Bars`, `Clash`: a loan in the way of a new one, where the new one is made;
* `PairReported`: a conflict between loans that go back to a given pair is among the conflicts;
* `mem_seen_pointsConflicts`: the pairs that are left out are those reported before;
* `clash_of_borrowed`, `Clash.reported`: what is reported clashes, and what clashes is reported;
* `written_mem_conflicts_iff`: the same of writes, of which none is left out.
-/

namespace Ownership

variable {facts : LoanFacts} {pt p : Point} {old new : Loan} {seen : Pairs} {k : Nat × Nat}

/-! ## 1. One new loan -/

/-- The loan is in the way of the new one. -/
def Loan.Bars (old new : Loan) : Prop := old.isTouched new.place = true ∧ old.excludes new = true

/-- A conflict between two loans that go back to the pair is among the conflicts. -/
def PairReported (cs : List Conflict) (k : Nat × Nat) : Prop :=
  ∃ pt old new, .borrowed pt old new ∈ cs ∧ pairKey old new = k

theorem pairReported_append {xs ys : List Conflict} :
    PairReported (xs ++ ys) k ↔ PairReported xs k ∨ PairReported ys k := by
  simp only [PairReported, List.mem_append, or_and_right, exists_or]

/-- Conflicts that are not about new loans report no pair. -/
theorem not_pairReported {cs : List Conflict} (h : ∀ pt old new, .borrowed pt old new ∉ cs) :
    ¬ PairReported cs k := by
  intro hk
  obtain ⟨pt, old, new, hmem, _⟩ := hk
  exact h pt old new hmem

section Borrow

variable {olds : List Loan}

/-- The pairs that are left out from then on are those reported so far. -/
theorem mem_seen_borrowConflicts : k ∈ (borrowConflicts pt new olds seen).2 ↔
    k ∈ seen ∨ PairReported (borrowConflicts pt new olds seen).1 k := by
  induction olds generalizing seen with
  | nil => exact (or_iff_left (not_pairReported fun _ _ _ h => absurd h List.not_mem_nil)).symm
  | cons o olds ih =>
    rw [borrowConflicts]
    split_ifs with hc
    · have hfirst : PairReported [.borrowed pt o new] k ↔ k = pairKey o new := by
        simp [PairReported, eq_comm]
      show k ∈ (borrowConflicts pt new olds (pairKey o new :: seen)).2 ↔ k ∈ seen ∨
        PairReported ([.borrowed pt o new] ++ (borrowConflicts pt new olds (pairKey o new :: seen)).1) k
      rw [ih, pairReported_append, hfirst, List.mem_cons]
      tauto
    · exact ih

theorem Loan.Bars.recorded (h : old.Bars new) (hold : old ∈ olds) :
    pairKey old new ∈ (borrowConflicts pt new olds seen).2 := by
  induction olds generalizing seen with
  | nil => cases hold
  | cons o olds ih =>
    have hkept : ∀ {seen}, pairKey old new ∈ seen →
        pairKey old new ∈ (borrowConflicts pt new olds seen).2 := fun hk =>
      mem_seen_borrowConflicts.mpr (Or.inl hk)
    rw [borrowConflicts]
    rcases List.mem_cons.mp hold with rfl | hold
    · split_ifs with hc
      · exact hkept List.mem_cons_self
      · rw [h.1, h.2, Bool.true_and, Bool.true_and, Bool.not_eq_true, Bool.not_eq_false',
          List.contains_iff_mem] at hc
        exact hkept hc
    · split_ifs
      · exact ih hold
      · exact ih hold

end Borrow

/-! ## 2. The accesses of a point -/

section Accesses

variable {here : List Loan} {a : Access} {as : List Access}

/-- Only an access that makes a loan raises a conflict about one. -/
theorem of_mem_accessConflicts (h : .borrowed p old new ∈ (accessConflicts facts pt here seen a).1) :
    p = pt ∧ (∃ q, a = .borrow q new) ∧ old ∈ facts.activeBefore pt ++ here ∧ old.Bars new := by
  cases a with
  | borrow q l =>
    obtain ⟨o, ho, he, hbars⟩ := of_mem_borrowConflicts h
    cases he
    exact ⟨rfl, ⟨q, rfl⟩, ho, hbars⟩
  | read q =>
    obtain ⟨l, _, he⟩ := List.mem_map.mp h
    cases he
  | move q =>
    obtain ⟨l, _, he⟩ := List.mem_map.mp h
    cases he
  | write q =>
    obtain ⟨l, _, he⟩ := List.mem_map.mp h
    cases he

theorem mem_seen_accessConflicts : k ∈ (accessConflicts facts pt here seen a).2 ↔
    k ∈ seen ∨ PairReported (accessConflicts facts pt here seen a).1 k := by
  have hnone : a.loan? = none → ¬ PairReported (accessConflicts facts pt here seen a).1 k := by
    refine fun hloan => not_pairReported fun pt old new h => ?_
    obtain ⟨_, ⟨q, rfl⟩, _⟩ := of_mem_accessConflicts h
    cases hloan
  cases a with
  | borrow q l => exact mem_seen_borrowConflicts
  | read q => exact (or_iff_left (hnone rfl)).symm
  | move q => exact (or_iff_left (hnone rfl)).symm
  | write q => exact (or_iff_left (hnone rfl)).symm

/-- Among the accesses of a point a loan is made with another in its way: one that is in use at the
    point, or one made there before. -/
def Clash (facts : LoanFacts) (pt : Point) (here : List Loan) (as : List Access) (old new : Loan) : Prop :=
  ∃ done q rest, as = done ++ .borrow q new :: rest ∧
    old ∈ facts.activeBefore pt ++ (here ++ done.filterMap Access.loan?) ∧ old.Bars new

theorem clash_cons : Clash facts pt here (a :: as) old new ↔
    ((∃ q, a = .borrow q new) ∧ old ∈ facts.activeBefore pt ++ here ∧ old.Bars new) ∨
      Clash facts pt (here ++ a.loan?.toList) as old new := by
  have hmore : ∀ done : List Access, here ++ (a :: done).filterMap Access.loan? =
      here ++ a.loan?.toList ++ done.filterMap Access.loan? := fun done => by
    rw [List.append_assoc]
    cases h : a.loan? with
    | none => rw [List.filterMap_cons_none h, Option.toList_none, List.nil_append]
    | some l => rw [List.filterMap_cons_some h]; rfl
  constructor
  · intro h
    obtain ⟨done, q, rest, he, hold, hbars⟩ := h
    cases done with
    | nil =>
      cases he
      rw [List.filterMap_nil, List.append_nil] at hold
      exact Or.inl ⟨⟨q, rfl⟩, hold, hbars⟩
    | cons d done =>
      cases he
      rw [hmore] at hold
      exact Or.inr ⟨done, q, rest, rfl, hold, hbars⟩
  · intro h
    rcases h with ⟨⟨q, rfl⟩, hold, hbars⟩ | ⟨done, q, rest, rfl, hold, hbars⟩
    · refine ⟨[], q, as, rfl, ?_, hbars⟩
      rw [List.filterMap_nil, List.append_nil]
      exact hold
    · refine ⟨a :: done, q, rest, rfl, ?_, hbars⟩
      rw [hmore]
      exact hold

theorem of_mem_accessesConflicts
    (h : .borrowed p old new ∈ (accessesConflicts facts pt here as seen).1) :
    p = pt ∧ Clash facts pt here as old new := by
  induction as generalizing here seen with
  | nil => cases h
  | cons a as ih =>
    rw [accessesConflicts_cons.1] at h
    rcases List.mem_append.mp h with h | h
    · obtain ⟨hp, hfirst⟩ := of_mem_accessConflicts h
      exact ⟨hp, clash_cons.mpr (Or.inl hfirst)⟩
    · obtain ⟨hp, hlater⟩ := ih h
      exact ⟨hp, clash_cons.mpr (Or.inr hlater)⟩

theorem mem_seen_accessesConflicts : k ∈ (accessesConflicts facts pt here as seen).2 ↔
    k ∈ seen ∨ PairReported (accessesConflicts facts pt here as seen).1 k := by
  induction as generalizing here seen with
  | nil => exact (or_iff_left (not_pairReported fun _ _ _ h => absurd h List.not_mem_nil)).symm
  | cons a as ih =>
    rw [accessesConflicts_cons.1, accessesConflicts_cons.2, ih, mem_seen_accessConflicts,
      pairReported_append, or_assoc]

theorem Clash.recorded (h : Clash facts pt here as old new) :
    pairKey old new ∈ (accessesConflicts facts pt here as seen).2 := by
  induction as generalizing here seen with
  | nil =>
    obtain ⟨done, q, rest, he, _⟩ := h
    cases done <;> cases he
  | cons a as ih =>
    rw [accessesConflicts_cons.2]
    rcases clash_cons.mp h with ⟨⟨q, rfl⟩, hold, hbars⟩ | h
    · exact mem_seen_accessesConflicts.mpr (Or.inl (hbars.recorded hold))
    · exact ih h

theorem written_mem_accessConflicts_iff {d : Place} {l : Loan} :
    .written p d l ∈ (accessConflicts facts pt here seen a).1 ↔
      p = pt ∧ .write d = a ∧ l ∈ facts.activeAfter pt ∧ l.isOverwritten d = true := by
  cases a with
  | borrow q new =>
    refine iff_of_false (fun h => ?_) fun h => Access.noConfusion h.2.1
    obtain ⟨o, _, he, _⟩ := of_mem_borrowConflicts h
    cases he
  | read q =>
    refine iff_of_false (fun h => ?_) fun h => Access.noConfusion h.2.1
    obtain ⟨l, _, he⟩ := List.mem_map.mp h
    cases he
  | move q =>
    refine iff_of_false (fun h => ?_) fun h => Access.noConfusion h.2.1
    obtain ⟨l, _, he⟩ := List.mem_map.mp h
    cases he
  | write q =>
    constructor
    · intro h
      obtain ⟨l, hl, he⟩ := List.mem_map.mp h
      cases he
      exact ⟨rfl, rfl, List.mem_filter.mp hl⟩
    · intro h
      obtain ⟨rfl, he, hl⟩ := h
      cases he
      exact List.mem_map_of_mem (List.mem_filter.mpr hl)

/-- No write is left out. -/
theorem written_mem_accessesConflicts_iff {d : Place} {l : Loan} :
    .written p d l ∈ (accessesConflicts facts pt here as seen).1 ↔
      p = pt ∧ .write d ∈ as ∧ l ∈ facts.activeAfter pt ∧ l.isOverwritten d = true := by
  induction as generalizing here seen with
  | nil => exact iff_of_false List.not_mem_nil fun h => absurd h.2.1 List.not_mem_nil
  | cons a as ih =>
    rw [accessesConflicts_cons.1, List.mem_append, written_mem_accessConflicts_iff, ih, List.mem_cons]
    tauto

end Accesses

/-! ## 3. All points -/

section Points

variable {rows : List (Point × List Access)}

theorem of_mem_pointsConflicts (h : .borrowed p old new ∈ (pointsConflicts facts rows seen).1) :
    ∃ as, (p, as) ∈ rows ∧ Clash facts p [] as old new := by
  induction rows generalizing seen with
  | nil => cases h
  | cons r rows ih =>
    rw [pointsConflicts_cons.1] at h
    rcases List.mem_append.mp h with h | h
    · obtain ⟨rfl, hclash⟩ := of_mem_accessesConflicts h
      exact ⟨r.2, List.mem_cons_self, hclash⟩
    · obtain ⟨as, has, hclash⟩ := ih h
      exact ⟨as, List.mem_cons_of_mem _ has, hclash⟩

theorem mem_seen_pointsConflicts : k ∈ (pointsConflicts facts rows seen).2 ↔
    k ∈ seen ∨ PairReported (pointsConflicts facts rows seen).1 k := by
  induction rows generalizing seen with
  | nil => exact (or_iff_left (not_pairReported fun _ _ _ h => absurd h List.not_mem_nil)).symm
  | cons r rows ih =>
    rw [pointsConflicts_cons.1, pointsConflicts_cons.2, ih, mem_seen_accessesConflicts,
      pairReported_append, or_assoc]

theorem Clash.recorded_points {as : List Access} (h : Clash facts p [] as old new) (has : (p, as) ∈ rows) :
    pairKey old new ∈ (pointsConflicts facts rows seen).2 := by
  induction rows generalizing seen with
  | nil => cases has
  | cons r rows ih =>
    rw [pointsConflicts_cons.2]
    rcases List.mem_cons.mp has with rfl | has
    · exact mem_seen_pointsConflicts.mpr (Or.inl h.recorded)
    · exact ih has

theorem written_mem_pointsConflicts_iff {d : Place} {l : Loan} :
    .written p d l ∈ (pointsConflicts facts rows seen).1 ↔
      ∃ as, (p, as) ∈ rows ∧ .write d ∈ as ∧ l ∈ facts.activeAfter p ∧ l.isOverwritten d = true := by
  induction rows generalizing seen with
  | nil => simp [pointsConflicts]
  | cons r rows ih =>
    rw [pointsConflicts_cons.1, List.mem_append, written_mem_accessesConflicts_iff, ih]
    constructor
    · intro h
      rcases h with ⟨rfl, hw⟩ | ⟨as, has, hw⟩
      · exact ⟨r.2, List.mem_cons_self, hw⟩
      · exact ⟨as, List.mem_cons_of_mem _ has, hw⟩
    · intro h
      obtain ⟨as, has, hw⟩ := h
      rcases List.mem_cons.mp has with rfl | has
      · exact Or.inl ⟨rfl, hw⟩
      · exact Or.inr ⟨as, has, hw⟩

end Points

/-! ## 4. The analysis -/

variable {f : Function} {types : TypeTable} {cap : Nat}

/-- **What is reported clashes**, at the point where it is reported. -/
theorem clash_of_borrowed (h : .borrowed p old new ∈ (f.analyse types cap).conflicts) :
    ∃ as, (p, as) ∈ f.accessPoints f.graph types (f.analyse types cap).loans ∧
      Clash (f.analyse types cap).loans p [] as old new :=
  of_mem_pointsConflicts ((mem_conflicts_byAccess rfl).mp h)

/-- **What clashes is reported**, there or where the pair clashed before. -/
theorem Clash.reported {as : List Access} (h : Clash (f.analyse types cap).loans p [] as old new)
    (has : (p, as) ∈ f.accessPoints f.graph types (f.analyse types cap).loans) :
    PairReported (f.analyse types cap).conflicts (pairKey old new) := by
  have hseen : pairKey old new ∈ (pointsConflicts _ _ []).2 := h.recorded_points has
  obtain ⟨pt, old', new', hmem, hk⟩ :=
    (mem_seen_pointsConflicts.mp hseen).resolve_left List.not_mem_nil
  exact ⟨pt, old', new', (mem_conflicts_byAccess rfl).mpr hmem, hk⟩

/-- **Every write over a loan in use behind it is reported**, and no other. -/
theorem written_mem_conflicts_iff (hf : f.WellFormed) (hp : f.Reaches p) {d : Place} {l : Loan} :
    .written p d l ∈ (f.analyse types cap).conflicts ↔
      .write d ∈ f.accessesAt types (f.analyse types cap).loans p ∧
        l ∈ (f.analyse types cap).loans.activeAfter p ∧ l.isOverwritten d = true := by
  rw [mem_conflicts_byAccess rfl, written_mem_pointsConflicts_iff]
  simp only [Function.mem_accessPoints_iff hf hp, exists_eq_left]

end Ownership
