import Mathlib.Data.Finset.Card
import Ownership.Proofs.Collections
import Ownership.Proofs.Flow.Route

/-!
# What lies beyond a block

The blocks beyond a block are collected in rounds, each of which adds the successors of all blocks found
so far, until a round adds nothing. There are as many rounds as blocks, which is enough: a round that is
not the last one adds a block.

* `Graph.mem_spread_iff`: what the rounds collect is what edges lead to from the blocks at first;
* `Graph.mem_beyond_iff`: beyond a block are the blocks that at least one edge leads to;
* `Function.leads_iff`: steps lead from one point to another either forward within a block or through
  a block beyond.
-/

namespace Ownership

open Std (ExtTreeSet)
open Relation (TransGen ReflTransGen)

/-! ## 1. Rounds -/

namespace Graph

variable {g : Graph} {b c : Nat} {s : ExtTreeSet Nat}

/-- An edge of the graph. -/
def Edge (g : Graph) (a t : Nat) : Prop := t ∈ g.succsOf a

/-- One round: the blocks with all their successors. -/
def round (g : Graph) (s : ExtTreeSet Nat) : ExtTreeSet Nat :=
  s.toList.foldl (fun t b => t.insertMany (g.succsOf b)) s

theorem mem_round : c ∈ g.round s ↔ c ∈ s ∨ ∃ b ∈ s, g.Edge b c := by
  have hfold : ∀ (bs : List Nat) (t : ExtTreeSet Nat),
      c ∈ bs.foldl (fun t b => t.insertMany (g.succsOf b)) t ↔ c ∈ t ∨ ∃ b ∈ bs, g.Edge b c := by
    intro bs
    induction bs with
    | nil => simp
    | cons a bs ih =>
      intro t
      rw [List.foldl_cons, ih, ExtTreeSet.mem_insertMany_list, List.contains_iff_mem]
      simp only [List.mem_cons, exists_eq_or_imp, or_assoc]
      exact Iff.rfl
  rw [round, hfold]
  simp only [ExtTreeSet.mem_toList]

theorem spread_succ (fuel : Nat) :
    g.spread (fuel + 1) s = if g.round s = s then s else g.spread fuel (g.round s) := rfl

/-- The blocks that are not found yet. -/
def unfound (g : Graph) (s : ExtTreeSet Nat) : Finset Nat := (Finset.range g.size).filter (· ∉ s)

/-- A round that changes anything finds a block. -/
theorem card_unfound_round (hin : ∀ a t, g.Edge a t → t < g.size) (hne : g.round s ≠ s) :
    (g.unfound (g.round s)).card < (g.unfound s).card := by
  obtain ⟨c, hround, hs⟩ : ∃ c, c ∈ g.round s ∧ c ∉ s := by
    by_contra hall
    push Not at hall
    exact hne (ExtTreeSet.ext_mem fun c => ⟨hall c, fun hc => mem_round.mpr (Or.inl hc)⟩)
  obtain ⟨b, _, he⟩ := (mem_round.mp hround).resolve_left hs
  refine Finset.card_lt_card ((Finset.ssubset_iff_of_subset fun x hx => ?_).mpr ⟨c, ?_, fun hc => ?_⟩)
  · obtain ⟨hlt, hx⟩ := Finset.mem_filter.mp hx
    exact Finset.mem_filter.mpr ⟨hlt, fun h => hx (mem_round.mpr (Or.inl h))⟩
  · exact Finset.mem_filter.mpr ⟨Finset.mem_range.mpr (hin b c he), hs⟩
  · exact (Finset.mem_filter.mp hc).2 hround

/-- **What the rounds collect.** With a round for each block not found yet, nothing is left out. -/
theorem mem_spread_iff (hin : ∀ a t, g.Edge a t → t < g.size) {fuel : Nat}
    (hfuel : (g.unfound s).card ≤ fuel) : c ∈ g.spread fuel s ↔ ∃ b ∈ s, ReflTransGen g.Edge b c := by
  have hkeeps : ∀ {t : ExtTreeSet Nat}, (∀ a ∈ t, ∀ x, g.Edge a x → x ∈ t) →
      ((∃ b ∈ t, ReflTransGen g.Edge b c) ↔ c ∈ t) := by
    intro t hclosed
    refine ⟨fun h => ?_, fun h => ⟨c, h, .refl⟩⟩
    obtain ⟨b, hb, hc⟩ := h
    induction hc with
    | refl => exact hb
    | tail _ he ih => exact hclosed _ ih _ he
  induction fuel generalizing s with
  | zero =>
    -- every block is found already
    refine (hkeeps fun a _ x he => ?_).symm
    by_contra hx
    have hmem : x ∈ g.unfound s := Finset.mem_filter.mpr ⟨Finset.mem_range.mpr (hin a x he), hx⟩
    exact absurd (Finset.card_pos.mpr ⟨x, hmem⟩) (Nat.not_lt.mpr hfuel)
  | succ fuel ih =>
    rw [spread_succ]
    split_ifs with hsame
    · refine (hkeeps fun a ha x he => ?_).symm
      rw [← hsame]
      exact mem_round.mpr (Or.inr ⟨a, ha, he⟩)
    · have hrest : (g.unfound (g.round s)).card ≤ fuel :=
        Nat.le_of_lt_succ ((card_unfound_round hin hsame).trans_le hfuel)
      refine (ih hrest).trans ⟨?_, ?_⟩
      · intro h
        obtain ⟨b, hb, hc⟩ := h
        rcases mem_round.mp hb with hb | ⟨a, ha, he⟩
        · exact ⟨b, hb, hc⟩
        · exact ⟨a, ha, .head he hc⟩
      · intro h
        obtain ⟨b, hb, hc⟩ := h
        exact ⟨b, mem_round.mpr (Or.inl hb), hc⟩

/-- **Beyond a block are the blocks that at least one edge leads to.** -/
theorem mem_beyond_iff (hin : ∀ a t, g.Edge a t → t < g.size) :
    c ∈ g.beyond b ↔ TransGen g.Edge b c := by
  have hfuel : (g.unfound (ExtTreeSet.ofList (g.succsOf b))).card ≤ g.size :=
    (Finset.card_filter_le _ _).trans (Finset.card_range _).le
  rw [beyond, mem_spread_iff hin hfuel, TransGen.head'_iff]
  simp only [ExtTreeSet.mem_ofList, List.contains_iff_mem]
  exact Iff.rfl

end Graph

/-! ## 2. Steps -/

namespace Function

variable {f : Function} {b i j : Nat} {p q : Point}

theorem WellFormed.edge_lt (hf : f.WellFormed) (a t : Nat) (h : f.graph.Edge a t) : t < f.graph.size := by
  have ht := hf.targets_lt a t (Graph.mem_succsOf.mp h)
  have hsize : f.graph.size = (f.blocks.map fun x => x.terminator.targets).length := List.length_map _
  exact hsize ▸ ht

/-- Forward within a block. -/
theorem steps_within (hij : i ≤ j) (hj : j ≤ (f.block b).statements.length) :
    ReflTransGen f.Step ⟨b, i⟩ ⟨b, j⟩ := by
  induction j, hij using Nat.le_induction with
  | base => exact .refl
  | succ j _ ih => exact (ih (Nat.le_of_succ_le hj)).tail (.next hj)

/-- Through blocks, from the start of the first to the start of the last. -/
theorem steps_through {c : Nat} (h : TransGen f.graph.Edge b c)
    (hi : i ≤ (f.block b).statements.length) : TransGen f.Step ⟨b, i⟩ ⟨c, 0⟩ := by
  have hjump : ∀ {a t : Nat}, f.graph.Edge a t → ∀ {k}, k ≤ (f.block a).statements.length →
      TransGen f.Step ⟨a, k⟩ ⟨t, 0⟩ := by
    intro a t he k hk
    exact TransGen.tail' (steps_within hk (Nat.le_refl _)) (.jump (mem_succsOf.mp he))
  induction h with
  | single he => exact hjump he hi
  | tail _ he ih => exact ih.trans (hjump he (Nat.zero_le _))

/-- **Steps lead from a point to another one forward within its block, or through a block beyond.** -/
theorem leads_iff (hq : q.stmt ≤ (f.block q.block).statements.length)
    (hp : p.stmt ≤ (f.block p.block).statements.length) :
    TransGen f.Step q p ↔
      (q.block = p.block ∧ q.stmt < p.stmt) ∨ TransGen f.graph.Edge q.block p.block := by
  constructor
  · intro h
    clear hp
    induction h with
    | single hs =>
      cases hs with
      | next h => exact Or.inl ⟨rfl, Nat.lt_succ_self _⟩
      | jump h => exact Or.inr (.single (mem_succsOf.mpr h))
    | tail _ hs ih =>
      cases hs with
      | next h => exact ih.imp_left fun hlt => ⟨hlt.1, hlt.2.trans (Nat.lt_succ_self _)⟩
      | jump h =>
        have he := mem_succsOf.mpr h
        rcases ih with ⟨hblock, _⟩ | ih
        · exact Or.inr (.single (hblock ▸ he))
        · exact Or.inr (ih.tail he)
  · intro h
    rcases h with ⟨hblock, hlt⟩ | h
    · obtain ⟨b, i⟩ := q
      obtain ⟨c, j⟩ := p
      cases hblock
      exact TransGen.head' (.next (Nat.lt_of_lt_of_le hlt hp)) (steps_within hlt hp)
    · exact (steps_through h hq).trans_left (steps_within (Nat.zero_le _) hp)

/-- A point that a route passed leads to the point of the route. -/
theorem Route.leads {ps : List Point} (h : f.Route p ps) (hq : q ∈ ps) : TransGen f.Step q p := by
  induction h with
  | start => cases hq
  | step _ hs ih =>
    rcases List.mem_cons.mp hq with rfl | hq
    · exact .single hs
    · exact (ih hq).tail hs

end Function

end Ownership
