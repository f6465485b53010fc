import Ownership.Proofs.Loans.Reaching
import Ownership.Proofs.Loans.Stops
import Ownership.Proofs.Types.Carrying

/-!
# What the table of loans lists

The first loans are the borrows that stand in the text of the reached blocks, in the order of the
text. All others are derived, block visit by block visit, and the table remembers them, so that no
borrow has two derived loans at one point. This is an invariant of the whole run, whether it
converges or not.

* `BorrowSite`, `Function.IsSite`: the borrows of the text;
* `sites_sorted`, `mem_sites`, `issued_sites`: the first loans are these, in order;
* `Derivations`, `trackLoans_derivations`: what every visit keeps of the derived loans;
* `tracked_of_keepsRefs`: a root that keeps references is tracked;
* `loan_table_listed`: all of it, for every table the pass returns.
-/

namespace Ownership

open Std (ExtTreeMap ExtTreeSet)

/-! ## 1. Borrows in the text -/

/-- A borrow in the text: a statement that borrows, or an operand that does. -/
structure BorrowSite where
  point : Point
  /-- The position among the operands of the statement, 0 for a statement that borrows. -/
  operand : Nat
  place : Place
  kind : LoanKind

/-- The order of the text. -/
def BorrowSite.Before (x y : BorrowSite) : Prop :=
  x.point.block < y.point.block ∨ x.point.block = y.point.block ∧
    (x.point.stmt < y.point.stmt ∨ x.point.stmt = y.point.stmt ∧ x.operand < y.operand)

/-- The statement borrows a place, by itself or as the operand of the position. -/
def Statement.BorrowsAs : Statement → Nat → Place → LoanKind → Prop
  | .borrow _ q j, n, p, k => n = 0 ∧ q = p ∧ j = k
  | .assign _ v, n, p, k => v.operands[n]? = some (.ref p k)
  | .eval v, n, p, k => v.operands[n]? = some (.ref p k)
  | .move _ _, _, _, _ => False
  | .drop _, _, _, _ => False

/-- A borrow in a block that is reached. -/
def Function.IsSite (f : Function) (x : BorrowSite) : Prop :=
  f.Reaches x.point ∧
    ∃ s, f.statementAt? x.point = some s ∧ s.BorrowsAs x.operand x.place x.kind

/-- What an operand borrows. -/
def Operand.borrowed? : Operand → Option (Place × LoanKind)
  | .ref p k => some (p, k)
  | .copy _ => none
  | .move _ => none
  | .literal _ => none

theorem Operand.borrowed?_eq_some {o : Operand} {p : Place} {k : LoanKind} :
    o.borrowed? = some (p, k) ↔ o = .ref p k := by
  cases o <;> simp [borrowed?]

theorem operandBorrows_eq (ops : List Operand) :
    Function.operandBorrows ops = ops.filterMap Operand.borrowed? := by
  refine List.filterMap_congr fun o _ => ?_
  cases o <;> rfl

/-- The borrows among operands. -/
def operandSites (pt : Point) (ops : List Operand) : List BorrowSite :=
  ops.zipIdx.filterMap fun x => x.1.borrowed?.map fun q => ⟨pt, x.2, q.1, q.2⟩

/-- The borrows of a statement. -/
def Statement.sites (pt : Point) : Statement → List BorrowSite
  | .borrow _ p k => [⟨pt, 0, p, k⟩]
  | .assign _ v => operandSites pt v.operands
  | .eval v => operandSites pt v.operands
  | .move _ _ => []
  | .drop _ => []

/-- The borrows of the reached blocks. -/
def Function.sites (f : Function) : List BorrowSite :=
  f.graph.reachable.flatMap fun b => (f.statementsOf b).flatMap fun e => e.1.sites e.2

theorem mem_operandSites {pt : Point} {ops : List Operand} {x : BorrowSite} :
    x ∈ operandSites pt ops ↔ x.point = pt ∧ ops[x.operand]? = some (.ref x.place x.kind) := by
  rw [operandSites, List.mem_filterMap]
  constructor
  · rintro ⟨⟨o, i⟩, ho, hx⟩
    obtain ⟨⟨p, k⟩, hq, rfl⟩ := Option.map_eq_some_iff.mp hx
    refine ⟨rfl, ?_⟩
    rw [← Operand.borrowed?_eq_some.mp hq]
    exact List.mem_zipIdx_iff_getElem?.mp ho
  · rintro ⟨rfl, ho⟩
    exact ⟨(.ref x.place x.kind, x.operand), List.mem_zipIdx_iff_getElem?.mpr ho, rfl⟩

theorem Statement.mem_sites {pt : Point} {s : Statement} {x : BorrowSite} :
    x ∈ s.sites pt ↔ x.point = pt ∧ s.BorrowsAs x.operand x.place x.kind := by
  cases s with
  | borrow d p k =>
    obtain ⟨q, n, p', k'⟩ := x
    simp only [Statement.sites, Statement.BorrowsAs, List.mem_singleton, BorrowSite.mk.injEq]
    rw [@eq_comm _ p p', @eq_comm _ k k']
  | assign d v => exact mem_operandSites
  | eval v => exact mem_operandSites
  | move d p => exact ⟨fun h => absurd h List.not_mem_nil, fun h => absurd h.2 id⟩
  | drop p => exact ⟨fun h => absurd h List.not_mem_nil, fun h => absurd h.2 id⟩

/-! ## 2. The order of the text -/

theorem pairwise_zipIdx {α : Type} (xs : List α) : xs.zipIdx.Pairwise fun a b => a.2 < b.2 := by
  refine List.pairwise_map.mp ?_
  rw [List.zipIdx_map_snd]
  exact List.pairwise_lt_range'

theorem operandSites_sorted (pt : Point) (ops : List Operand) :
    (operandSites pt ops).Pairwise BorrowSite.Before := by
  refine List.Pairwise.filterMap _ (fun a b hlt x hx y hy => ?_) (pairwise_zipIdx ops)
  obtain ⟨_, _, rfl⟩ := Option.map_eq_some_iff.mp hx
  obtain ⟨_, _, rfl⟩ := Option.map_eq_some_iff.mp hy
  exact .inr ⟨rfl, .inr ⟨rfl, hlt⟩⟩

theorem Statement.sites_sorted (pt : Point) (s : Statement) :
    (s.sites pt).Pairwise BorrowSite.Before := by
  cases s with
  | borrow d p k => exact List.pairwise_singleton _ _
  | assign d v => exact operandSites_sorted pt _
  | eval v => exact operandSites_sorted pt _
  | move d p => exact .nil
  | drop p => exact .nil

namespace Function

variable {f : Function} {types : TypeTable} {cap : Nat} {live : LiveFacts}

/-- The listed borrows are those of the reached blocks. -/
theorem mem_sites (hf : f.WellFormed) {x : BorrowSite} : x ∈ f.sites ↔ f.IsSite x := by
  rw [sites, List.mem_flatMap]
  constructor
  · rintro ⟨b, hb, hx⟩
    obtain ⟨⟨s, pt⟩, hs, hx⟩ := List.mem_flatMap.mp hx
    obtain ⟨rfl, hborrow⟩ := Statement.mem_sites.mp hx
    obtain ⟨rfl, hat⟩ := mem_statementsOf.mp hs
    refine ⟨?_, s, hat, hborrow⟩
    exact (Reaches.of_mem_order hf (hf.graph_sound.mem_reachable.mp hb)).within
      (Nat.le_of_lt (List.getElem?_eq_some_iff.mp hat).1)
  · rintro ⟨⟨ps, hr⟩, s, hat, hborrow⟩
    refine ⟨x.point.block, hr.mem_reachable hf, List.mem_flatMap.mpr ⟨(s, x.point), ?_, ?_⟩⟩
    · exact mem_statementsOf.mpr ⟨rfl, hat⟩
    · exact Statement.mem_sites.mpr ⟨rfl, hborrow⟩

/-- **Borrows are listed in the order of the text.** -/
theorem sites_sorted : f.sites.Pairwise BorrowSite.Before := by
  refine List.pairwise_flatMap.mpr ⟨fun b _ => ?_, ?_⟩
  · refine List.pairwise_flatMap.mpr ⟨fun e _ => Statement.sites_sorted e.2 e.1, ?_⟩
    refine List.pairwise_map.mpr ((pairwise_zipIdx _).imp fun hlt x hx y hy => ?_)
    obtain ⟨hx, _⟩ := Statement.mem_sites.mp hx
    obtain ⟨hy, _⟩ := Statement.mem_sites.mp hy
    refine .inr ⟨?_, .inl ?_⟩
    · rw [hx, hy]
    · rw [hx, hy]
      exact hlt
  · have hblocks : f.graph.reachable.Pairwise (· < ·) := List.pairwise_lt_range.filter _
    refine hblocks.imp fun hlt x hx y hy => .inl ?_
    have hblock : ∀ {c : Nat} {z : BorrowSite},
        z ∈ ((f.statementsOf c).flatMap fun e => e.1.sites e.2) → z.point.block = c := by
      intro c z hz
      obtain ⟨e, he, hz⟩ := List.mem_flatMap.mp hz
      rw [(Statement.mem_sites.mp hz).1]
      exact (mem_statementsOf.mp he).1
    rw [hblock hx, hblock hy]
    exact hlt

/-! ## 3. The first loans -/

theorem borrows_sites (tracked : Names) (s : Statement) (pt : Point) :
    (f.borrows types tracked s).map (fun row => (pt, row.1, row.2.1)) =
      (s.sites pt).map fun x => (x.point, x.place, x.kind) := by
  have hops : ∀ ops : List Operand, (operandSites pt ops).map (fun x => (x.point, x.place, x.kind)) =
      (operandBorrows ops).map fun q => (pt, q.1, q.2) := by
    intro ops
    rw [operandBorrows_eq, operandSites, List.map_filterMap, List.map_filterMap]
    conv_rhs => rw [← List.zipIdx_map_fst 0 ops, List.filterMap_map]
    refine List.filterMap_congr fun x _ => ?_
    rw [Option.map_map]
    rfl
  cases s with
  | borrow d p k => rfl
  | assign d v =>
    rw [borrows, List.map_map, Statement.sites, hops]
    rfl
  | eval v =>
    rw [borrows, List.map_map, Statement.sites, hops]
    rfl
  | move d p => rfl
  | drop p => rfl

/-- **The first loans are the borrows of the text**, in the same order. -/
theorem issued_sites (f : Function) (types : TypeTable) (tracked : Names) :
    (f.issueLoans types tracked f.graph).map (fun l => (l.issuedAt, l.place, l.kind)) =
      f.sites.map fun x => (x.point, x.place, x.kind) := by
  have hzip : ∀ made : List (Point × Place × LoanKind × Option String),
      (made.zipIdx.map fun x => (⟨x.2, x.1.2.1, x.1.2.2.1, x.1.1, x.1.2.2.2, x.2⟩ : Loan)).map
        (fun l => (l.issuedAt, l.place, l.kind)) = made.map fun r => (r.1, r.2.1, r.2.2.1) := by
    intro made
    rw [List.map_map]
    conv_rhs => rw [← List.zipIdx_map_fst 0 made, List.map_map]
    rfl
  refine (hzip _).trans ?_
  rw [sites, List.map_flatMap, List.map_flatMap]
  refine List.flatMap_congr fun b _ => ?_
  rw [List.map_flatMap, List.map_flatMap]
  refine List.flatMap_congr fun e _ => ?_
  rw [List.map_map, ← borrows_sites]
  rfl

/-! ## 4. Derived loans -/

/-- Derived loans are told apart by borrow, point and holder, and the root that the statement at the
    point writes holds them. -/
structure Derivations (f : Function) (table : List Loan) : Prop where
  memo : LoanTable.Memo f.spots table
  dest : ∀ l ∈ table, l.isDerived = true →
    ∃ s d, f.statementAt? l.issuedAt = some s ∧ s.dest? = some d ∧ l.holder = some d.name

variable {table : List Loan} {ids : LoanIds}

theorem mem_of_derive {parent l : Loan} {pt : Point} {holder : String}
    (h : l ∈ (Loan.derive table parent pt holder).1) :
    l ∈ table ∨ l.issuedAt = pt ∧ l.holder = some holder := by
  unfold Loan.derive at h
  split at h
  · exact .inl h
  · rcases List.mem_append.mp h with h | h
    · exact .inl h
    · cases List.mem_singleton.mp h
      exact .inr ⟨rfl, rfl⟩

theorem mem_of_deriveAll {parents : List Loan} {l : Loan} {pt : Point} {holder : String}
    (h : l ∈ (Loan.deriveAll pt holder table parents).1) :
    l ∈ table ∨ parents ≠ [] ∧ l.issuedAt = pt ∧ l.holder = some holder := by
  induction parents generalizing table with
  | nil => exact .inl h
  | cons k ks ih =>
    rcases ih h with h | ⟨_, h⟩
    · exact (mem_of_derive h).imp_right fun h => ⟨List.cons_ne_nil _ _, h⟩
    · exact .inr ⟨List.cons_ne_nil _ _, h⟩

/-- A loan is entered where references are handed on, so there is a root to hold it. -/
theorem Derivations.step {s : Statement} {pt : Point} (h : f.Derivations table)
    (hs : f.statementAt? pt = some s) (hspot : (pt, s.destName) ∈ f.spots) :
    f.Derivations (f.loanStep types live pt s table ids).1 := by
  refine ⟨h.memo.deriveAll hspot _, fun l hl hder => ?_⟩
  rcases mem_of_deriveAll hl with hl | ⟨hparents, rfl, hholder⟩
  · exact h.dest l hl hder
  · obtain ⟨parent, hparent⟩ := List.exists_mem_of_ne_nil _ hparents
    obtain ⟨_, _, hflow, _⟩ := mem_parents.mp hparent
    obtain ⟨d, hd, hname⟩ := hflow.exists_dest
    exact ⟨s, d, hs, hd, hholder.trans (congrArg some hname.symm)⟩

theorem Derivations.steps {body : List (Statement × Point)} (h : f.Derivations table)
    (hbody : ∀ x ∈ body, f.statementAt? x.2 = some x.1 ∧ (x.2, x.1.destName) ∈ f.spots) :
    f.Derivations (f.loanSteps types live body table ids).1 := by
  induction body generalizing table ids with
  | nil => exact h
  | cons x body ih =>
    obtain ⟨hs, hspot⟩ := hbody x List.mem_cons_self
    exact ih (h.step hs hspot) fun y hy => hbody y (List.mem_cons_of_mem _ hy)

theorem Derivations.block {b : Nat} (h : f.Derivations table) (hb : b ∈ f.graph.order) :
    f.Derivations (f.loanBlock types live b table ids).1 :=
  h.steps fun _ hx => ⟨(mem_statementsOf.mp hx).2,
    List.mem_flatMap.mpr ⟨b, hb, List.mem_map_of_mem hx⟩⟩

theorem Derivations.replay {ins : ExtTreeMap Nat LoanIds} {bs : List Nat} (h : f.Derivations table)
    (hbs : ∀ b ∈ bs, b ∈ f.graph.order) : f.Derivations (f.replayLoans types live ins bs table).1 := by
  induction bs generalizing table with
  | nil => exact h
  | cons b bs ih =>
    have hrest : ∀ c ∈ bs, c ∈ f.graph.order := fun c hc => hbs c (List.mem_cons_of_mem _ hc)
    unfold replayLoans
    split
    · exact ih h hrest
    · exact ih (h.block (hbs b List.mem_cons_self)) hrest

theorem issued_derivations (tracked : Names) :
    f.Derivations (f.issueLoans types tracked f.graph) :=
  ⟨f.issueLoans_memo types tracked, fun _ hl hder => absurd hder (not_isDerived_of_issueLoans hl)⟩

/-- **Every table the pass returns keeps its derived loans apart**, converged or not. -/
theorem trackLoans_derivations (hf : f.WellFormed) (types : TypeTable) (cap : Nat) (live : LiveFacts) :
    f.Derivations (f.trackLoans f.graph types cap live).loans := by
  obtain ⟨_, ⟨_, hlast⟩, _⟩ := @Worklist.run_invariant _ f.graph.order (f.visitLoans types live f.graph)
    (fun waiting s => (∀ b ∈ waiting, b ∈ f.graph.order) ∧ f.Derivations s.table)
    (fun b rest s h => by
      refine ⟨fun c hc => (Worklist.mem_enqueue.mp hc).1, ?_⟩
      rw [visitLoans_table]
      exact h.2.block (h.1 b List.mem_cons_self))
    cap [0] (f.firstLoans types live) 0
    ⟨fun b hb => List.mem_singleton.mp hb ▸ hf.graph_sound.entry, issued_derivations live.tracked⟩
  exact hlast.replay fun _ hb => hb

/-- No two derived loans have the borrow and the point in common. -/
theorem Derivations.unique (h : f.Derivations table) {l k : Loan} (hl : l ∈ table) (hk : k ∈ table)
    (hdl : l.isDerived = true) (hdk : k.isDerived = true) (ho : l.origin = k.origin)
    (hpt : l.issuedAt = k.issuedAt) : l = k := by
  obtain ⟨s, d, hs, hd, hholder⟩ := h.dest l hl hdl
  obtain ⟨s', d', hs', hd', hholder'⟩ := h.dest k hk hdk
  rw [hpt, hs'] at hs
  cases hs
  cases hd.symm.trans hd'
  have hsame : l.hold? = k.hold? := by
    rw [Loan.hold?, Loan.hold?, ho, hpt, hholder, hholder']
  exact List.inj_on_of_nodup_map h.memo.distinct (List.mem_filter.mpr ⟨hl, hdl⟩)
    (List.mem_filter.mpr ⟨hk, hdk⟩) hsame

/-! ## 5. Holders -/

/-- A root declared with a type that carries references is tracked. -/
theorem tracked_of_carries {r : String} {i : TypeId} (h : f.locals.typeOf? r = some i)
    (hc : types.Carries i) : r ∈ f.tracked types := by
  obtain ⟨d, hd, hi⟩ := Option.bind_eq_some_iff.mp h
  obtain ⟨before, after, hlocals, _⟩ := List.lookup_eq_some_iff.mp hd
  have hmem : (r, d) ∈ f.locals := hlocals ▸ List.mem_append_right _ List.mem_cons_self
  rw [tracked, ExtTreeSet.mem_ofList, List.contains_iff_mem]
  have hcarries : types.carriesRef d.type = true := hi ▸ TypeTable.carriesRef_iff.mpr hc
  exact List.mem_append_left _ (List.mem_filterMap.mpr ⟨(r, d), hmem, if_pos hcarries⟩)

/-- **A root that keeps the references written to one of its places is tracked.** -/
theorem tracked_of_keepsRefs {d : Place} (h : f.keepsRefs types (f.tracked types) d = true) :
    d.name ∈ f.tracked types := by
  unfold keepsRefs at h
  split at h
  · exact ExtTreeSet.mem_iff_contains.mpr h
  · rename_i i htype
    obtain ⟨j, hj, hc⟩ := TypeTable.carries_of_path htype (TypeTable.carriesRef_iff.mp h)
    exact tracked_of_carries hj hc

/-- The root that a borrow is stored in is tracked. -/
theorem tracked_of_borrow {pt : Point} {d p : Place} {k : LoanKind}
    (h : f.statementAt? pt = some (.borrow d p k)) : d.name ∈ f.tracked types := by
  obtain ⟨hblock, hmem⟩ := block_of_statementAt? h
  rw [tracked, ExtTreeSet.mem_ofList, List.contains_iff_mem]
  exact List.mem_append_right _ (List.mem_flatMap.mpr ⟨_, hblock, List.mem_filterMap.mpr ⟨_, hmem, rfl⟩⟩)

/-- The holder of a first loan is tracked. -/
theorem tracked_of_issued {l : Loan} {r : String}
    (hl : l ∈ f.issueLoans types (f.tracked types) f.graph) (hr : l.holder = some r) :
    r ∈ f.tracked types := by
  obtain ⟨s, hs, _, hborrow⟩ := exists_statement_of_issued hl
  rw [hr] at hborrow
  cases s with
  | borrow d p k =>
    cases List.mem_singleton.mp hborrow
    exact tracked_of_borrow hs
  | assign d v =>
    obtain ⟨row, _, he⟩ := List.mem_map.mp hborrow
    have hholder : (if f.keepsRefs types (f.tracked types) d then some d.name else none) = some r :=
      congrArg (fun x : Place × LoanKind × Option String => x.2.2) he
    split at hholder
    · rename_i hkeeps
      cases hholder
      exact tracked_of_keepsRefs hkeeps
    · cases hholder
  | eval v =>
    obtain ⟨row, _, he⟩ := List.mem_map.mp hborrow
    exact absurd (congrArg (fun x : Place × LoanKind × Option String => x.2.2) he).symm
      (Option.some_ne_none r)
  | move d p => cases hborrow
  | drop p => cases hborrow

end Function

/-! ## 6. The table -/

namespace LoanTable

variable {issued table : List Loan}

theorem map_id (h : LoanTable issued table) : table.map Loan.id = List.range table.length := by
  refine List.ext_getElem (by rw [List.length_map, List.length_range]) fun i hi _ => ?_
  rw [List.length_map] at hi
  rw [List.getElem_map, List.getElem_range]
  exact h.numbered i _ (List.getElem?_eq_getElem hi)

theorem isDerived_of_issued (h : LoanTable issued table) {l : Loan} (hl : l ∈ issued) :
    l.isDerived = false := by
  rw [Loan.isDerived, bne_eq_false_iff_eq]
  exact h.own l hl

theorem mem_issued (h : LoanTable issued table) {l : Loan} (hl : l ∈ table)
    (hder : l.isDerived = false) : l ∈ issued := by
  obtain ⟨extra, rfl⟩ := h.grown
  rcases List.mem_append.mp hl with hl | hl
  · exact hl
  · cases hder.symm.trans (h.isDerived_of_mem hl)

/-- The loans behind the first are derived, each from one of the first. -/
theorem origin_of_later (h : LoanTable issued table) {l : Loan} (hl : l ∈ table.drop issued.length) :
    l.isDerived = true ∧ ∃ o : Loan, table[l.origin]? = some o ∧ o.isDerived = false ∧ o.id < l.id ∧
      o.place = l.place ∧ o.kind = l.kind := by
  have hmem := List.mem_of_mem_drop hl
  obtain ⟨o, ho, hplace, hkind⟩ := h.rooted l hmem
  have hlt : l.origin < issued.length := (List.getElem?_eq_some_iff.mp ho).1
  have hget : table[l.origin]? = some o := (getElem?_of_grown h.grown hlt).trans ho
  have hid : issued.length ≤ l.id := by
    obtain ⟨i, hi⟩ := List.mem_iff_getElem?.mp hl
    rw [List.getElem?_drop] at hi
    rw [h.numbered _ l hi]
    exact Nat.le_add_right _ _
  refine ⟨bne_iff_ne.mpr (by omega), o, hget, h.isDerived_of_issued (List.mem_of_getElem? ho), ?_,
    hplace, hkind⟩
  rw [h.numbered _ o hget]
  omega

end LoanTable

/-- What a table of loans lists, given the borrows of the text. -/
structure LoanFacts.Lists (facts : LoanFacts) (f : Function) (sites : List BorrowSite) : Prop where
  /-- The numbers are the positions in the table. -/
  numbered : facts.loans.map Loan.id = List.range facts.loans.length
  /-- Every borrow of the text has its loan, and these loans come first. -/
  first : ∀ (i : Nat) (x : BorrowSite), sites[i]? = some x → ∃ l : Loan, facts.loans[i]? = some l ∧
    l.isDerived = false ∧ l.issuedAt = x.point ∧ l.place = x.place ∧ l.kind = x.kind
  /-- All later loans are derived, from one of the first with the same place and kind, for the root
      that the statement at their point writes. -/
  later : ∀ l ∈ facts.loans.drop sites.length, l.isDerived = true ∧
    (∃ o : Loan, facts.loans[l.origin]? = some o ∧ o.isDerived = false ∧ o.id < l.id ∧
      o.place = l.place ∧ o.kind = l.kind) ∧
    ∃ s d, f.statementAt? l.issuedAt = some s ∧ s.dest? = some d ∧ l.holder = some d.name
  /-- A loan is derived once at a point. -/
  once : ∀ l ∈ facts.loans, ∀ k ∈ facts.loans, l.isDerived = true → k.isDerived = true →
    l.origin = k.origin → l.issuedAt = k.issuedAt → l = k
  /-- Holders are tracked. -/
  held : ∀ l ∈ facts.loans, l.isDerived = false → ∀ r, l.holder = some r → r ∈ facts.live.tracked

/-- **The table of loans**, for any bounds on the visits of the two passes: it begins with the borrows
    of the reached blocks in the order of the text, and what follows is derived from these. -/
theorem loan_table_listed {d : Draft} {f : Function} {types : TypeTable}
    (hv : d.validate types = .ok f) (cap liveCap : Nat) :
    ∃ sites : List BorrowSite, sites.Pairwise BorrowSite.Before ∧ (∀ x, x ∈ sites ↔ f.IsSite x) ∧
      (f.trackLoans f.graph types cap (f.trackLive f.graph types liveCap)).Lists f sites := by
  have hf := Draft.wellFormed_of_validate hv
  have htracked : (f.trackLive f.graph types liveCap).tracked = f.tracked types := rfl
  have htable : LoanTable (f.issueLoans types (f.trackLive f.graph types liveCap).tracked f.graph)
      (f.trackLoans f.graph types cap (f.trackLive f.graph types liveCap)).loans := Function.loans_table hf
  rw [htracked] at htable
  have hder := Function.trackLoans_derivations hf types cap (f.trackLive f.graph types liveCap)
  have hsites := f.issued_sites types (f.tracked types)
  have hlength : f.sites.length = (f.issueLoans types (f.tracked types) f.graph).length := by
    simpa using (congrArg List.length hsites).symm
  refine ⟨f.sites, Function.sites_sorted, fun x => Function.mem_sites hf, htable.map_id, ?_, ?_,
    fun l hl k hk => hder.unique hl hk, ?_⟩
  · intro i x hx
    have hi := (congrArg (·[i]?) hsites).trans (List.getElem?_map.trans (congrArg _ hx))
    rw [List.getElem?_map] at hi
    obtain ⟨l, hl, he⟩ := Option.map_eq_some_iff.mp hi
    obtain ⟨hpoint, hplace, hkind⟩ : l.issuedAt = x.point ∧ l.place = x.place ∧ l.kind = x.kind := by
      simpa only [Prod.mk.injEq] using he
    exact ⟨l, (getElem?_of_grown htable.grown (List.getElem?_eq_some_iff.mp hl).1).trans hl,
      htable.isDerived_of_issued (List.mem_of_getElem? hl), hpoint, hplace, hkind⟩
  · intro l hl
    rw [hlength] at hl
    obtain ⟨hderived, horigin⟩ := htable.origin_of_later hl
    exact ⟨hderived, horigin, hder.dest l (List.mem_of_mem_drop hl) hderived⟩
  · intro l hl hderived r hr
    have hissued := htable.mem_issued hl hderived
    exact Function.tracked_of_issued hissued hr

/-- The loop of `relay` has two borrows, and derives one loan behind them. -/
theorem loan_table_listed_relay :
    relay.draft.validate relayTypes = .ok relay ∧
      (relay.trackLoans relay.graph relayTypes 20 (relay.trackLive relay.graph relayTypes 20)).loans.map
        (fun l => (l.id, l.issuedAt, l.origin)) = [(0, ⟨0, 2⟩, 0), (1, ⟨1, 0⟩, 1), (2, ⟨1, 2⟩, 1)] ∧
      ∃ sites : List BorrowSite, sites.Pairwise BorrowSite.Before ∧
        (∀ x, x ∈ sites ↔ relay.IsSite x) ∧
        (relay.trackLoans relay.graph relayTypes 20 (relay.trackLive relay.graph relayTypes 20)).Lists
          relay sites :=
  ⟨rfl, by decide +kernel, loan_table_listed (d := relay.draft) rfl 20 20⟩

end Ownership
