import Mathlib.Data.List.Sort
import Ownership.Proofs.Verdict

/-!
# The canonical form of a report

A report is built by sorting the findings and keeping the first of each key. The order looks at the
point, the loan, the kind and the place, a key at the kind, the place and the point: among findings
with one key the loan alone decides, and of findings that agree in all four the sort keeps the one
that came first.

* `Finding.mark`, `Finding.markOrder`: what the order looks at; findings tie if their marks are equal;
* `Finding.Leads`: the first finding with the smallest loan number among those with its key;
* `Report.filter_mark_mergeSort`: sorting leaves findings that tie as they were;
* `Report.mem_kept_iff`, `Report.kept_sorted`: the leading findings are kept, in strict order;
* `Report.build_canonical`: reports are canonical forms of lists of findings.
-/

namespace Ownership

open Std (TransCmp OrientedCmp ReflCmp)
open scoped List

/-! ## 1. The order of findings -/

theorem FindingKind.render_injective {k l : FindingKind} (h : k.render = l.render) : k = l := by
  cases k <;> cases l <;> first | rfl | exact absurd h (by decide)

theorem FindingKind.isLint_iff {k : FindingKind} : k.isLint = true ↔ k = .deadCode := by
  cases k <;> simp [isLint]

namespace Finding

/-- What the order looks at: kind, place, point and the number of the loan. -/
def mark (r : Finding) : FindingKind × String × Location × Int := (r.kind, r.place, r.point, r.rank)

/-- The order of findings, on marks. -/
abbrev markOrder : FindingKind × String × Location × Int → FindingKind × String × Location × Int → Ordering :=
  compareLex (compareOn (·.2.2.1)) (compareLex (compareOn (·.2.2.2))
    (compareLex (compareOn (·.1.render)) (compareOn (·.2.1))))

theorem order_eq (a b : Finding) : order a b = markOrder a.mark b.mark := rfl

theorem eq_of_markOrder {m n : FindingKind × String × Location × Int} (h : markOrder m n = .eq) :
    m = n := by
  obtain ⟨k, p, l, i⟩ := m
  obtain ⟨k', p', l', i'⟩ := n
  simp only [markOrder, compareLex, compareOn, Ordering.then_eq_eq, Std.compare_eq_iff_eq] at h
  obtain ⟨rfl, rfl, hk, rfl⟩ := h
  rw [FindingKind.render_injective hk]

instance : TransCmp order where
  eq_swap {a b} := show markOrder a.mark b.mark = (markOrder b.mark a.mark).swap from
    OrientedCmp.eq_swap
  isLE_trans {a b c} hab hbc := show (markOrder a.mark c.mark).isLE from
    TransCmp.isLE_trans (show (markOrder a.mark b.mark).isLE from hab) hbc

theorem order_total (a b : Finding) : ((order a b).isLE || (order b a).isLE) = true := by
  rw [@OrientedCmp.eq_swap _ order _ a b]
  cases order b a <;> rfl

/-- Findings that tie agree in their marks. -/
theorem order_eq_eq {a b : Finding} : order a b = .eq ↔ a.mark = b.mark := by
  rw [order_eq]
  constructor
  · exact eq_of_markOrder
  · intro h
    rw [h]
    exact ReflCmp.compare_self

theorem mark_eq_iff {a b : Finding} : a.mark = b.mark ↔ a.key = b.key ∧ a.rank = b.rank := by
  simp [mark, key, and_assoc]

/-- Among findings with one key the loan decides. -/
theorem isLE_order_iff {a b : Finding} (h : a.key = b.key) :
    (order a b).isLE = true ↔ a.rank ≤ b.rank := by
  obtain ⟨hkind, hplace, hpoint⟩ : a.kind = b.kind ∧ a.place = b.place ∧ a.point = b.point := by
    simpa [key] using h
  rw [order, hkind, hplace, hpoint, Std.compare_self, Std.compare_self, Std.compare_self,
    Ordering.eq_then, Ordering.then_eq, Ordering.then_eq]
  exact Std.isLE_compare

/-- The finding speaks for those of the list with its key: none of them has a smaller loan number, and
    it comes before the others with its own. -/
structure Leads (rs : List Finding) (r : Finding) : Prop where
  least : ∀ q ∈ rs, q.key = r.key → r.rank ≤ q.rank
  first : ∃ before after, rs = before ++ r :: after ∧ ∀ q ∈ before, q.key = r.key → q.rank ≠ r.rank

theorem Leads.mem {rs : List Finding} {r : Finding} (h : r.Leads rs) : r ∈ rs := by
  obtain ⟨before, after, rfl, _⟩ := h.first
  exact List.mem_append_right _ List.mem_cons_self

/-- Being the first of a mark, as a search. -/
theorem find?_mark_iff {rs : List Finding} {r : Finding} :
    rs.find? (fun q => q.mark == r.mark) = some r ↔
      ∃ before after, rs = before ++ r :: after ∧ ∀ q ∈ before, q.key = r.key → q.rank ≠ r.rank := by
  simp [List.find?_eq_some_iff_append, mark_eq_iff]

end Finding

namespace Report

/-! ## 2. Sorting -/

variable {rs : List Finding} {r : Finding}

/-- The findings in order. -/
abbrev sorted (rs : List Finding) : List Finding :=
  rs.mergeSort fun a b => (Finding.order a b).isLE

theorem pairwise_sorted (rs : List Finding) :
    (sorted rs).Pairwise fun a b => (Finding.order a b).isLE = true :=
  List.pairwise_mergeSort (fun _ _ _ => TransCmp.isLE_trans) Finding.order_total rs

/-- **Sorting leaves findings that tie as they were.** -/
theorem filter_mark_mergeSort (rs : List Finding) (m : FindingKind × String × Location × Int) :
    (sorted rs).filter (fun q => q.mark == m) = rs.filter fun q => q.mark == m := by
  have hties : (rs.filter fun q => q.mark == m).Pairwise fun a b => (Finding.order a b).isLE = true := by
    refine List.pairwise_of_forall_mem_list fun a ha b hb => ?_
    have hab : a.mark = b.mark :=
      (eq_of_beq (List.mem_filter.mp ha).2).trans (eq_of_beq (List.mem_filter.mp hb).2).symm
    rw [Finding.order_eq_eq.mpr hab]
    rfl
  -- the ties stand in the sorted list in their order, and nothing else of their mark does
  have hsub : rs.filter (fun q => q.mark == m) <+ sorted rs :=
    List.sublist_mergeSort (fun _ _ _ => TransCmp.isLE_trans) Finding.order_total hties
      List.filter_sublist
  have hall := hsub.filter fun q => q.mark == m
  simp only [List.filter_filter, Bool.and_self] at hall
  exact (hall.eq_of_length ((List.mergeSort_perm rs _).filter _).length_eq.symm).symm

theorem find?_mark_sorted (rs : List Finding) (m : FindingKind × String × Location × Int) :
    (sorted rs).find? (fun q => q.mark == m) = rs.find? fun q => q.mark == m := by
  rw [← List.head?_filter, filter_mark_mergeSort, List.head?_filter]

/-! ## 3. Keeping the first of each key -/

theorem firsts_sublist (seen : List (FindingKind × String × Location)) (rs : List Finding) :
    firsts seen rs <+ rs := by
  induction rs generalizing seen with
  | nil => exact List.Sublist.refl _
  | cons q rs ih =>
    rw [firsts]
    split_ifs
    · exact (ih seen).cons q
    · exact (ih _).cons_cons q

/-- What is kept is the first of its key. -/
theorem mem_firsts_iff {seen : List (FindingKind × String × Location)} :
    r ∈ firsts seen rs ↔ r.key ∉ seen ∧ rs.find? (fun q => q.key == r.key) = some r := by
  induction rs generalizing seen with
  | nil => simp [firsts]
  | cons q rs ih =>
    rw [firsts, List.find?_cons]
    by_cases hq : q.key = r.key
    · -- `q` is the first of the key: it is kept, unless the key was seen
      rw [hq, beq_self_eq_true]
      split_ifs with hseen
      · rw [ih]
        exact iff_of_false (fun h => h.1 (List.contains_iff_mem.mp hseen))
          fun h => h.1 (List.contains_iff_mem.mp hseen)
      · rw [List.mem_cons, ih]
        have hnot : r.key ∉ seen := fun h => hseen (List.contains_iff_mem.mpr h)
        simp [hnot, eq_comm]
    · rw [beq_false_of_ne hq]
      split_ifs with hseen
      · exact ih
      · rw [List.mem_cons, ih, List.mem_cons, not_or]
        have hne : r ≠ q := fun h => hq (h ▸ rfl)
        simp [hne, Ne.symm hq]

theorem nodup_firsts (seen : List (FindingKind × String × Location)) (rs : List Finding) :
    ((firsts seen rs).map Finding.key).Nodup := by
  induction rs generalizing seen with
  | nil => exact List.nodup_nil
  | cons q rs ih =>
    rw [firsts]
    split_ifs
    · exact ih seen
    · rw [List.map_cons, List.nodup_cons]
      refine ⟨fun h => ?_, ih _⟩
      obtain ⟨r, hr, hk⟩ := List.mem_map.mp h
      exact (mem_firsts_iff.mp hr).1 (hk ▸ List.mem_cons_self)

/-! ## 4. What is kept -/

/-- The findings a report says, in order. -/
def kept (rs : List Finding) : List Finding := firsts [] (sorted rs)

/-- **The leading findings are kept, and no others.** -/
theorem mem_kept_iff : r ∈ kept rs ↔ r.Leads rs := by
  have hsearch : r ∈ kept rs ↔ (sorted rs).find? (fun q => q.key == r.key) = some r := by
    rw [kept, mem_firsts_iff, and_iff_right List.not_mem_nil]
  rw [hsearch, List.find?_eq_some_iff_append]
  constructor
  · intro h
    obtain ⟨_, before, after, hsplit, hbefore⟩ := h
    have hkey : ∀ q ∈ before, q.key ≠ r.key := by simpa using hbefore
    constructor
    · intro q hq hk
      -- `q` is `r` or stands behind it
      have hsorted := pairwise_sorted rs
      have hmem : q ∈ before ++ r :: after := hsplit ▸ List.mem_mergeSort.mpr hq
      rw [hsplit] at hsorted
      rcases List.mem_append.mp hmem with hq | hq
      · exact absurd hk (hkey q hq)
      · rcases List.mem_cons.mp hq with rfl | hq
        · exact Int.le_refl _
        · exact (Finding.isLE_order_iff hk.symm).mp
            ((List.pairwise_cons.mp (List.pairwise_append.mp hsorted).2.1).1 q hq)
    · rw [← Finding.find?_mark_iff, ← find?_mark_sorted, Finding.find?_mark_iff]
      exact ⟨before, after, hsplit, fun q hq hk => absurd hk (hkey q hq)⟩
  · intro h
    obtain ⟨hleast, hfirst⟩ := h
    rw [← Finding.find?_mark_iff, ← find?_mark_sorted, Finding.find?_mark_iff] at hfirst
    obtain ⟨before, after, hsplit, hbefore⟩ := hfirst
    refine ⟨beq_self_eq_true _, before, after, hsplit, fun q hq => ?_⟩
    have hsorted := pairwise_sorted rs
    have hmem : q ∈ rs := List.mem_mergeSort.mp (hsplit ▸ List.mem_append_left _ hq)
    rw [hsplit] at hsorted
    rw [Bool.not_eq_true', beq_eq_false_iff_ne]
    intro hk
    -- a finding with the key before `r` would have a loan number that is no greater, and no smaller
    have hle : q.rank ≤ r.rank := (Finding.isLE_order_iff hk).mp
      ((List.pairwise_append.mp hsorted).2.2 q hq r List.mem_cons_self)
    exact hbefore q hq hk (Int.le_antisymm hle (hleast q hmem hk))

/-- Every key that came up has a finding that leads. -/
theorem exists_leads (h : r ∈ rs) : ∃ x : Finding, x.Leads rs ∧ x.key = r.key := by
  obtain ⟨x, hx, hk⟩ := exists_mem_firsts (List.mem_mergeSort.mpr h) List.not_mem_nil
  exact ⟨x, mem_kept_iff.mp hx, hk⟩

theorem nodup_kept (rs : List Finding) : ((kept rs).map Finding.key).Nodup := nodup_firsts [] _

/-- **What is kept stands in strict order**: findings that tie would have one key. -/
theorem kept_sorted (rs : List Finding) : (kept rs).Pairwise fun a b => Finding.order a b = .lt := by
  have hle := (pairwise_sorted rs).sublist (firsts_sublist [] (sorted rs))
  have hne := List.pairwise_map.mp (nodup_kept rs)
  refine (hle.and hne).imp fun {a b} h => ?_
  cases ho : Finding.order a b with
  | lt => rfl
  | eq => exact absurd (Finding.mark_eq_iff.mp (Finding.order_eq_eq.mp ho)).1 h.2
  | gt => rw [ho] at h; cases h.1

/-- The findings of a report are the kept ones, the conflicts put first. -/
theorem findings_build_perm (name : String) (rs : List Finding) :
    (build name rs).findings ~ kept rs :=
  List.perm_append_comm.trans (List.filter_append_perm _ (kept rs))

theorem mem_findings_build (name : String) : r ∈ (build name rs).findings ↔ r.Leads rs :=
  (findings_build_perm name rs).mem_iff.trans mem_kept_iff

/-- The marks of what is kept, whoever leads: the smallest loan number of each key. -/
theorem mem_marks_iff {m : FindingKind × String × Location × Int} :
    m ∈ (kept rs).map Finding.mark ↔
      ∃ r ∈ rs, r.mark = m ∧ ∀ q ∈ rs, q.key = r.key → r.rank ≤ q.rank := by
  rw [List.mem_map]
  constructor
  · intro h
    obtain ⟨r, hr, hm⟩ := h
    have hlead := mem_kept_iff.mp hr
    exact ⟨r, hlead.mem, hm, hlead.least⟩
  · intro h
    obtain ⟨q, hq, hm, hleast⟩ := h
    -- the first of the findings with this mark leads
    have hsome : (rs.find? fun p => p.mark == q.mark).isSome = true :=
      List.find?_isSome.mpr ⟨q, hq, beq_self_eq_true q.mark⟩
    obtain ⟨r, hr⟩ := Option.isSome_iff_exists.mp hsome
    have hmark : r.mark = q.mark := by simpa using List.find?_some hr
    obtain ⟨hkey, hrank⟩ := Finding.mark_eq_iff.mp hmark
    rw [← hmark] at hr
    refine ⟨r, mem_kept_iff.mpr ⟨fun p hp hk => ?_, Finding.find?_mark_iff.mp hr⟩, hmark.trans hm⟩
    rw [hrank]
    exact hleast p hp (hk.trans hkey)

/-- Lists in strict order with the same members are equal. -/
theorem eq_of_strict {α : Type} {cmp : α → α → Ordering} [OrientedCmp cmp] {l l' : List α}
    (hl : l.Pairwise fun a b => cmp a b = .lt) (hl' : l'.Pairwise fun a b => cmp a b = .lt)
    (h : ∀ a, a ∈ l ↔ a ∈ l') : l = l' := by
  have hirrefl : Std.Irrefl fun a b => cmp a b = .lt := by
    refine ⟨fun a ha => ?_⟩
    cases ha.symm.trans ReflCmp.compare_self
  have hantisymm : Std.Antisymm fun a b => cmp a b = .lt := by
    refine ⟨fun a b hab hba => ?_⟩
    cases hab.symm.trans (OrientedCmp.gt_iff_lt.mpr hba)
  exact hl.eq_of_mem_iff hl' h

/-- The marks do not depend on the order in which the findings came. -/
theorem marks_kept_perm {rs' : List Finding} (h : rs ~ rs') :
    (kept rs).map Finding.mark = (kept rs').map Finding.mark := by
  refine @eq_of_strict _ Finding.markOrder _ _ _ (List.pairwise_map.mpr (kept_sorted rs))
    (List.pairwise_map.mpr (kept_sorted rs')) fun m => ?_
  simp only [mem_marks_iff, h.mem_iff]

/-- The same for the findings of some kinds only. -/
theorem marks_of_kind_perm (p : FindingKind → Bool) {rs' : List Finding} (h : rs ~ rs') :
    ((kept rs).filter fun r => p r.kind).map Finding.mark =
      ((kept rs').filter fun r => p r.kind).map Finding.mark := by
  have hfilter : ∀ l : List Finding, (l.filter fun r => p r.kind).map Finding.mark =
      (l.map Finding.mark).filter fun m => p m.1 := by
    intro l
    rw [List.filter_map]
    rfl
  rw [hfilter, hfilter, marks_kept_perm h]

/-- Where every key stands once, every finding leads. -/
theorem leads_iff_mem (h : (rs.map Finding.key).Nodup) : r.Leads rs ↔ r ∈ rs := by
  refine ⟨Finding.Leads.mem, fun hr => ⟨fun q hq hk => ?_, ?_⟩⟩
  · rw [List.inj_on_of_nodup_map h hq hr hk]
  · obtain ⟨before, after, rfl⟩ := List.append_of_mem hr
    rw [List.map_append, List.nodup_append] at h
    refine ⟨before, after, rfl, fun q hq hk => ?_⟩
    exact absurd hk (h.2.2 _ (List.mem_map_of_mem hq) _ (by simp))

/-- What was kept is kept again. -/
theorem kept_perm_findings {rs' : List Finding} (name : String) (h : rs' ~ (build name rs).findings) :
    kept rs' = kept rs := by
  have hperm : rs' ~ kept rs := h.trans (findings_build_perm name rs)
  have hnodup : (rs'.map Finding.key).Nodup := (hperm.map _).nodup_iff.mpr (nodup_kept rs)
  refine eq_of_strict (kept_sorted rs') (kept_sorted rs) fun r => ?_
  rw [mem_kept_iff, leads_iff_mem hnodup, hperm.mem_iff]

/-! ## 5. Reports -/

theorem build_eq (name : String) (rs : List Finding) : build name rs =
    ⟨name, (kept rs).filter fun r => !r.kind.isLint, (kept rs).filter fun r => r.kind.isLint⟩ := rfl

/-- **A report is a canonical form of the findings it is built from.** Every key that came up stands in
    it once, with the finding that leads among those with the key; conflicts and lints are apart and in
    strict order; the verdict is good if nothing but lints came up; the order in which the findings
    came up changes no mark, and the findings of a report, in any order, give the report again. -/
theorem build_canonical (name : String) (rs : List Finding) :
    let r := build name rs
    (r.findings.map Finding.key).Nodup ∧
    (∀ k, k ∈ r.findings.map Finding.key ↔ k ∈ rs.map Finding.key) ∧
    (∀ x, x ∈ r.findings ↔ x.Leads rs) ∧
    (∀ x ∈ r.conflicts, x.kind ≠ .deadCode) ∧ (∀ x ∈ r.lints, x.kind = .deadCode) ∧
    (r.conflicts.Pairwise fun a b => Finding.order a b = .lt) ∧
    (r.lints.Pairwise fun a b => Finding.order a b = .lt) ∧
    (r.ok = true ↔ ∀ x ∈ rs, x.kind = .deadCode) ∧
    (∀ rs', rs ~ rs' → r.conflicts.map Finding.mark = (build name rs').conflicts.map Finding.mark ∧
      r.lints.map Finding.mark = (build name rs').lints.map Finding.mark) ∧
    (∀ rs', rs' ~ r.findings → build name rs' = r) := by
  intro r
  refine ⟨?_, fun k => ?_, fun x => mem_findings_build name, fun x hx => ?_, fun x hx => ?_,
    (kept_sorted rs).filter _, (kept_sorted rs).filter _, ?_, fun rs' h => ?_,
    fun rs' h => ?_⟩
  · exact ((findings_build_perm name rs).map _).nodup_iff.mpr (nodup_kept rs)
  · simp only [List.mem_map, r, mem_findings_build]
    constructor
    · intro hk
      obtain ⟨x, hx, rfl⟩ := hk
      exact ⟨x, hx.mem, rfl⟩
    · intro hk
      obtain ⟨x, hx, rfl⟩ := hk
      exact exists_leads hx
  · have hlint := (List.mem_filter.mp hx).2
    rwa [Bool.not_eq_true', Bool.eq_false_iff, ne_eq, FindingKind.isLint_iff] at hlint
  · exact FindingKind.isLint_iff.mp (List.mem_filter.mp hx).2
  · rw [ok_build]
    exact forall₂_congr fun x _ => FindingKind.isLint_iff
  · exact ⟨marks_of_kind_perm (fun k => !k.isLint) h, marks_of_kind_perm (·.isLint) h⟩
  · rw [build_eq, kept_perm_findings name h, ← build_eq]

/-- Three findings about one access, the middle one about an earlier loan, and a dead block. -/
def accessThrice : List Finding :=
  [⟨.aliasingConflict, "x.f", ⟨2, 1⟩, "loan #7", none, some 7⟩,
   ⟨.aliasingConflict, "x.f", ⟨2, 1⟩, "loan #3", none, some 3⟩,
   ⟨.aliasingConflict, "x.f", ⟨2, 1⟩, "loan #3 again", none, some 3⟩,
   ⟨.deadCode, "bb1", ⟨1, 0⟩, "block bb1", none, none⟩]

/-- Of the three findings the one about the earlier loan is reported, also when they come up the other
    way round; handing the report in again changes nothing. -/
theorem build_canonical_accessThrice :
    (⟨.aliasingConflict, "x.f", ⟨2, 1⟩, "loan #3", none, some 3⟩ : Finding) ∈
      (build "f" accessThrice).findings ∧
    (build "f" accessThrice).ok = false ∧
    (build "f" accessThrice.reverse).conflicts.map Finding.mark =
      (build "f" accessThrice).conflicts.map Finding.mark ∧
    build "f" (build "f" accessThrice).findings.reverse = build "f" accessThrice := by
  obtain ⟨_, _, hleads, _, _, _, _, hok, hperm, hagain⟩ := build_canonical "f" accessThrice
  refine ⟨(hleads _).mpr ⟨by decide, ?_⟩, ?_, ?_, ?_⟩
  · exact ⟨[⟨.aliasingConflict, "x.f", ⟨2, 1⟩, "loan #7", none, some 7⟩], _, rfl, by decide⟩
  · rw [Bool.eq_false_iff, ne_eq, hok]
    decide
  · exact (hperm _ accessThrice.reverse_perm.symm).1.symm
  · exact hagain _ (List.reverse_perm _)

end Report

end Ownership
