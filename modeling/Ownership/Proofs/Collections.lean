import Std.Data.ExtTreeMap
import Std.Data.ExtTreeSet

/-!
# Finite sets and maps, read by membership

The passes keep their results in ordered trees. Some facts about these are missing from the library
in the form in which the proofs need them:

* `mem_filter_iff`, `mem_insert_iff`, `mem_erase_iff`: membership, for an order that tells different
  elements apart;
* `getElem?_rows`, `mem_of_getElem?_rows`: what a map holds that was written row by row. With
  distinct keys every row is there, and nothing but the rows is there;
* `getElem?_constant`: a map that holds the same under every key of a list;
* `mapM_id_map_some`: a list of which nothing is missing.
-/

namespace Ownership

open Std

section Sets

variable {α : Type} [Ord α] [TransOrd α] [LawfulEqOrd α]

theorem mem_filter_iff {s : ExtTreeSet α} {p : α → Bool} {a : α} :
    a ∈ s.filter p ↔ a ∈ s ∧ p a = true := by
  rw [ExtTreeSet.mem_filter]
  constructor
  · intro hx
    obtain ⟨h, hp⟩ := hx
    rw [ExtTreeSet.get_eq] at hp
    exact ⟨h, hp⟩
  · intro hx
    obtain ⟨h, hp⟩ := hx
    refine ⟨h, ?_⟩
    rw [ExtTreeSet.get_eq]
    exact hp

theorem mem_insert_iff {s : ExtTreeSet α} {a b : α} : a ∈ s.insert b ↔ a = b ∨ a ∈ s := by
  rw [ExtTreeSet.mem_insert, LawfulEqOrd.compare_eq_iff_eq, eq_comm]

theorem mem_erase_iff {s : ExtTreeSet α} {a b : α} : a ∈ s.erase b ↔ a ≠ b ∧ a ∈ s := by
  rw [ExtTreeSet.mem_erase, ne_eq, LawfulEqOrd.compare_eq_iff_eq, eq_comm]

omit [LawfulEqOrd α] in
/-- A union collected along a list. -/
theorem mem_foldl_union {γ : Type} (xs : List γ) (f : γ → ExtTreeSet α) (s : ExtTreeSet α) {a : α} :
    a ∈ xs.foldl (fun s x => s ∪ f x) s ↔ a ∈ s ∨ ∃ x ∈ xs, a ∈ f x := by
  induction xs generalizing s with
  | nil => simp
  | cons x xs ih =>
    rw [List.foldl_cons, ih, ExtTreeSet.mem_union_iff]
    simp only [List.mem_cons, exists_eq_or_imp, or_assoc]

end Sets

section Maps

variable {κ β γ : Type} [Ord κ] [TransOrd κ] [LawfulEqOrd κ]

theorem getElem?_insert_ne {m : ExtTreeMap κ β} {k j : κ} {v : β} (h : j ≠ k) :
    (m.insert k v)[j]? = m[j]? := by
  rw [ExtTreeMap.getElem?_insert, if_neg]
  intro e
  exact h (LawfulEqOrd.eq_of_compare e).symm

theorem getD_insert_ne {m : ExtTreeMap κ β} {k j : κ} {v d : β} (h : j ≠ k) :
    (m.insert k v).getD j d = m.getD j d := by
  rw [ExtTreeMap.getD_eq_getD_getElem?, getElem?_insert_ne h, ExtTreeMap.getD_eq_getD_getElem?]

omit [LawfulEqOrd κ] in
/-- Under a key that is there, the default does not matter. -/
theorem getElem?_eq_getD_of_mem {m : ExtTreeMap κ β} {k : κ} (h : k ∈ m) (d : β) :
    m[k]? = some (m.getD k d) := by
  obtain ⟨v, hv⟩ := Option.isSome_iff_exists.mp (ExtTreeMap.isSome_getElem?_iff_mem.mpr h)
  rw [ExtTreeMap.getD_eq_getD_getElem?, hv, Option.getD_some]

variable (key : γ → κ) (val : γ → β)

/-- The map that rows are written to one after the other. -/
abbrev writeRows (rows : List γ) (m : ExtTreeMap κ β) : ExtTreeMap κ β :=
  rows.foldl (fun t r => t.insert (key r) (val r)) m

theorem getElem?_rows_of_not_mem {rows : List γ} {m : ExtTreeMap κ β} {k : κ}
    (h : k ∉ rows.map key) : (writeRows key val rows m)[k]? = m[k]? := by
  induction rows generalizing m with
  | nil => rfl
  | cons r rows ih =>
    rw [List.map_cons, List.mem_cons, not_or] at h
    rw [writeRows, List.foldl_cons]
    exact (ih h.2).trans (getElem?_insert_ne h.1)

theorem mem_rows {rows : List γ} {m : ExtTreeMap κ β} {k : κ} :
    k ∈ writeRows key val rows m ↔ k ∈ rows.map key ∨ k ∈ m := by
  induction rows generalizing m with
  | nil => simp [writeRows]
  | cons r rows ih =>
    rw [writeRows, List.foldl_cons, List.map_cons, List.mem_cons]
    refine ih.trans ?_
    rw [ExtTreeMap.mem_insert, LawfulEqOrd.compare_eq_iff_eq, eq_comm, or_left_comm, or_assoc]

/-- With distinct keys, every row is found under its key. -/
theorem getElem?_rows {rows : List γ} {m : ExtTreeMap κ β} (hd : (rows.map key).Nodup) {r : γ}
    (hr : r ∈ rows) : (writeRows key val rows m)[key r]? = some (val r) := by
  induction rows generalizing m with
  | nil => cases hr
  | cons q rows ih =>
    rw [List.map_cons, List.nodup_cons] at hd
    rw [writeRows, List.foldl_cons]
    rcases List.mem_cons.mp hr with rfl | hr
    · exact (getElem?_rows_of_not_mem key val hd.1).trans ExtTreeMap.getElem?_insert_self
    · exact ih hd.2 hr

/-- What is found was written by a row, or was there before. -/
theorem mem_of_getElem?_rows {rows : List γ} {m : ExtTreeMap κ β} {k : κ} {v : β}
    (h : (writeRows key val rows m)[k]? = some v) :
    (∃ r ∈ rows, key r = k ∧ val r = v) ∨ m[k]? = some v := by
  induction rows generalizing m with
  | nil => exact Or.inr h
  | cons q rows ih =>
    rw [writeRows, List.foldl_cons] at h
    rcases ih h with ⟨r, hr, hk, hv⟩ | h
    · exact Or.inl ⟨r, List.mem_cons_of_mem _ hr, hk, hv⟩
    · by_cases hk : k = key q
      · subst hk
        rw [ExtTreeMap.getElem?_insert_self] at h
        exact Or.inl ⟨q, List.mem_cons_self, rfl, Option.some.inj h⟩
      · rw [getElem?_insert_ne hk] at h
        exact Or.inr h

theorem getElem?_constant [DecidableEq κ] (ks : List κ) (v : β) (k : κ) :
    (ks.foldl (fun m j => m.insert j v) (∅ : ExtTreeMap κ β))[k]? = if k ∈ ks then some v else none := by
  have hkeys : ks.map (fun j => j) = ks := List.map_id _
  by_cases hk : k ∈ ks
  · have hmem : k ∈ writeRows (fun j : κ => j) (fun _ => v) ks (∅ : ExtTreeMap κ β) :=
      (mem_rows _ _).mpr (Or.inl (hkeys.symm ▸ hk))
    obtain ⟨w, hw⟩ := Option.isSome_iff_exists.mp (ExtTreeMap.isSome_getElem?_iff_mem.mpr hmem)
    rw [if_pos hk]
    rcases mem_of_getElem?_rows _ _ hw with ⟨_, _, _, rfl⟩ | hempty
    · exact hw
    · cases hempty.symm.trans ExtTreeMap.getElem?_empty
  · rw [if_neg hk]
    exact (getElem?_rows_of_not_mem (fun j : κ => j) (fun _ => v) (hkeys.symm ▸ hk)).trans
      ExtTreeMap.getElem?_empty

end Maps

theorem mapM_id_map_some {α : Type} (xs : List α) : (xs.map some).mapM id = some xs := by
  induction xs with
  | nil => rfl
  | cons x xs ih => simp [List.mapM_cons, ih]

end Ownership
