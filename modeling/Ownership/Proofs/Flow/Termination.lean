import Mathlib.Algebra.Order.BigOperators.Group.Finset
import Ownership.Proofs.Flow.Coincidence

/-!
# Worklists stop by themselves

A worklist that is given enough visits stops because nothing waits. The reason is the same for every
pass. What is kept for a block only grows; a visit that wakes other blocks adds something new to it,
and only finitely many things can be added.

* `run_of_converged`: a run that stopped by itself is the same under every larger bound;
* `run_converges`: a run stops by itself if every visit wakes nothing or uses up some room;
* `exists_cap`: the same for passes that keep growing sets with finitely many possible members;
* `ForwardPass.exists_cap`: what a forward pass keeps behind the blocks grows, so it stops.
-/

namespace Ownership

variable {X σ : Type}

namespace Worklist

variable {order : List Nat} {visit : Nat → σ → σ × List Nat}

/-! ## 1. Bounds that are large enough -/

/-- **A run that stopped by itself is the same under every larger bound.** -/
theorem run_of_converged {cap cap' : Nat} (hle : cap ≤ cap') {waiting : List Nat} {s : σ} {n : Nat}
    (h : (run order visit cap waiting s n).converged = true) :
    run order visit cap' waiting s n = run order visit cap waiting s n := by
  induction cap generalizing cap' waiting s n with
  | zero =>
    cases waiting with
    | nil => rw [run_nil, run_nil]
    | cons b rest => cases h
  | succ cap ih =>
    cases waiting with
    | nil => rw [run_nil, run_nil]
    | cons b rest =>
      obtain ⟨k, rfl⟩ : ∃ k, cap' = k + 1 := ⟨cap' - 1, by omega⟩
      exact ih (Nat.le_of_succ_le_succ hle) h

/-- Where a visit wakes nothing, fewer blocks wait than before. -/
theorem length_enqueue_nil (hnd : order.Nodup) (rest : List Nat) :
    (enqueue order rest []).length ≤ rest.length := by
  refine ((List.Nodup.filter _ hnd).subperm fun b hb => ?_).length_le
  simpa using (mem_enqueue.mp hb).2

/-- **A run stops by itself if every visit wakes nothing or uses up some room**: between two visits
    that use up room, each block is visited at most once. -/
theorem run_converges (hnd : order.Nodup) (I : List Nat → σ → Prop)
    (step : ∀ b rest s, I (b :: rest) s → I (enqueue order rest (visit b s).2) (visit b s).1)
    (room : σ → Nat)
    (shrinks : ∀ b rest s, I (b :: rest) s →
      (visit b s).2 = [] ∧ room (visit b s).1 ≤ room s ∨ room (visit b s).1 < room s)
    {cap : Nat} {waiting : List Nat} {s : σ} {n : Nat} (h : I waiting s)
    (hcap : room s * order.length + waiting.length ≤ cap) :
    (run order visit cap waiting s n).converged = true := by
  induction cap generalizing waiting s n with
  | zero =>
    have hnil : waiting = [] := List.eq_nil_of_length_eq_zero (by omega)
    rw [hnil, run_nil]
  | succ cap ih =>
    cases waiting with
    | nil => rw [run_nil]
    | cons b rest =>
      refine ih (step b rest s h) ?_
      rw [List.length_cons] at hcap
      rcases shrinks b rest s h with ⟨hw, hroom⟩ | hroom
      · have hlen := length_enqueue_nil hnd rest
        have hmul := Nat.mul_le_mul_right order.length hroom
        rw [hw]
        omega
      · have hlen : (enqueue order rest (visit b s).2).length ≤ order.length :=
          List.length_filter_le _ _
        have hmul := Nat.mul_le_mul_right order.length (Nat.succ_le_of_lt hroom)
        rw [Nat.succ_mul] at hmul
        omega

/-! ## 2. Growing sets -/

section Rank

open Classical

/-- How many of the possible members a set has; more than nothing, if there is a set at all. -/
noncomputable def rank (probes : Finset X) : Option (Set X) → Nat
  | none => 0
  | some A => 1 + (probes.filter (· ∈ A)).card

theorem rank_le (probes : Finset X) (A : Option (Set X)) : rank probes A ≤ 1 + probes.card := by
  cases A with
  | none => exact Nat.zero_le _
  | some A => exact Nat.add_le_add_left (Finset.card_filter_le _ _) 1

theorem rank_mono {probes : Finset X} {A B : Set X} (h : A ⊆ B) :
    rank probes (some A) ≤ rank probes (some B) :=
  Nat.add_le_add_left (Finset.card_le_card (Finset.monotone_filter_right _ fun _ _ hx => h hx)) 1

theorem rank_lt {probes : Finset X} {A B : Set X} (h : A ⊆ B) {x : X} (hx : x ∈ probes)
    (hB : x ∈ B) (hA : x ∉ A) : rank probes (some A) < rank probes (some B) := by
  refine Nat.add_lt_add_left (Finset.card_lt_card ⟨?_, fun hsub => ?_⟩) 1
  · exact Finset.monotone_filter_right _ fun _ _ hy => h hy
  · exact hA (Finset.mem_filter.mp (hsub (Finset.mem_filter.mpr ⟨hx, hB⟩))).2

end Rank

/-- What a visit does to sets that only grow: it touches the set of its own block alone, and wakes
    nothing unless it adds one of the possible members. -/
def Grows (probes : Finset X) (kept : σ → Nat → Option (Set X)) (b : Nat) (s : σ)
    (after : σ × List Nat) : Prop :=
  (∀ c, c ≠ b → kept after.1 c = kept s c) ∧
    ∃ B, kept after.1 b = some B ∧ ∀ A, kept s b = some A →
      A ⊆ B ∧ (after.2 = [] ∨ ∃ x ∈ probes, x ∈ B ∧ x ∉ A)

/-- The room that the sets of some blocks leave. -/
noncomputable def room (probes : Finset X) (blocks : Finset Nat) (kept : Nat → Option (Set X)) : Nat :=
  ∑ b ∈ blocks, (1 + probes.card - rank probes (kept b))

theorem Grows.room_shrinks {probes : Finset X} {kept : σ → Nat → Option (Set X)} {b : Nat} {s : σ}
    {after : σ × List Nat} (h : Grows probes kept b s after) {blocks : Finset Nat}
    (hb : b ∈ blocks) :
    after.2 = [] ∧ room probes blocks (kept after.1) ≤ room probes blocks (kept s) ∨
      room probes blocks (kept after.1) < room probes blocks (kept s) := by
  obtain ⟨hothers, B, hB, hgrow⟩ := h
  -- the visited block alone decides
  have hle : rank probes (kept s b) ≤ rank probes (kept after.1 b) →
      ∀ c ∈ blocks, 1 + probes.card - rank probes (kept after.1 c) ≤
        1 + probes.card - rank probes (kept s c) := by
    intro hrank c _
    by_cases e : c = b
    · rw [e]
      omega
    · rw [hothers c e]
  have hlt : rank probes (kept s b) < rank probes (kept after.1 b) →
      room probes blocks (kept after.1) < room probes blocks (kept s) := by
    intro hrank
    have hbound := rank_le probes (kept after.1 b)
    exact Finset.sum_lt_sum (hle hrank.le) ⟨b, hb, by omega⟩
  cases hA : kept s b with
  | none =>
    refine Or.inr (hlt ?_)
    rw [hA, hB]
    exact Nat.add_pos_left Nat.one_pos _
  | some A =>
    obtain ⟨hsub, hw | ⟨x, hx, hxB, hxA⟩⟩ := hgrow A hA
    · refine Or.inl ⟨hw, Finset.sum_le_sum (hle ?_)⟩
      rw [hA, hB]
      exact rank_mono hsub
    · refine Or.inr (hlt ?_)
      rw [hA, hB]
      exact rank_lt hsub hx hxB hxA

/-- **A pass that keeps growing sets with finitely many possible members stops by itself** once the
    bound is large enough. -/
theorem exists_cap (hnd : order.Nodup) (I : List Nat → σ → Prop)
    (step : ∀ b rest s, I (b :: rest) s → I (enqueue order rest (visit b s).2) (visit b s).1)
    (waits : ∀ b rest s, I (b :: rest) s → b ∈ order)
    (probes : Finset X) (kept : σ → Nat → Option (Set X))
    (grows : ∀ b rest s, I (b :: rest) s → Grows probes kept b s (visit b s))
    {waiting : List Nat} {s : σ} (h : I waiting s) (n : Nat) :
    ∃ N, ∀ cap, N ≤ cap → (run order visit cap waiting s n).converged = true := by
  refine ⟨_, fun cap hcap => run_converges hnd I step
    (fun s => room probes order.toFinset (kept s)) (fun b rest s hI => ?_) h hcap⟩
  exact (grows b rest s hI).room_shrinks (List.mem_toFinset.mpr (waits b rest s hI))

end Worklist

/-! ## 3. Forward passes -/

namespace ForwardPass

variable {f : Function} {rule : Point → Set X → Set X} {init : Set X}
  {Good : σ → Prop} {ins outs : σ → Nat → Option (Set X)} {visit : Nat → σ → σ × List Nat}
  {s : σ} {b : Nat} {rest : List Nat}

/-- A forward pass whose visits preserve something more is a forward pass over the states that have
    it. -/
theorem strengthen (hp : ForwardPass f rule init Good ins outs visit) (More : σ → Prop)
    (hmore : ∀ s b, Good s → More s → b ∈ f.graph.order → f.Known (outs s) b → More (visit b s).1) :
    ForwardPass f rule init (fun s => Good s ∧ More s) ins outs visit where
  additive := hp.additive
  good s b hs hb hk := ⟨hp.good s b hs.1 hb hk, hmore s b hs.1 hs.2 hb hk⟩
  before s b hs := hp.before s b hs.1
  behind s b hs := hp.behind s b hs.1
  others s b hs := hp.others s b hs.1
  woken s b hs := hp.woken s b hs.1

theorem Invariant.strengthen {waiting : List Nat}
    (h : Invariant f rule init Good ins outs waiting s) {More : σ → Prop} (hmore : More s) :
    Invariant f rule init (fun s => Good s ∧ More s) ins outs waiting s :=
  { h with good := ⟨h.good, hmore⟩ }

theorem joined_mono {o o' : Nat → Option (Set X)}
    (h : ∀ c A, o c = some A → ∃ B, o' c = some B ∧ A ⊆ B) (c : Nat) :
    f.joined init o c ⊆ f.joined init o' c := by
  intro x hx
  rcases hx with hx | ⟨p, hp, A, hA, hx⟩
  · exact Or.inl hx
  · obtain ⟨B, hB, hsub⟩ := h p A hA
    exact Or.inr ⟨p, hp, B, hB, hsub hx⟩

/-- What is kept behind a block would be found again by another visit. -/
def Ascending (f : Function) (rule : Point → Set X → Set X) (init : Set X)
    (outs : Nat → Option (Set X)) : Prop :=
  ∀ b A, outs b = some A → A ⊆ f.throughBlock rule b (f.joined init outs b)

section Visit

variable (hp : ForwardPass f rule init Good ins outs visit)
  (h : Invariant f rule init Good ins outs (b :: rest) s) (ha : Ascending f rule init (outs s))

include hp h ha

/-- A visit only adds to what is kept. -/
theorem Ascending.grows {c : Nat} {A : Set X} (hA : outs s c = some A) :
    ∃ B, outs (visit b s).1 c = some B ∧ A ⊆ B := by
  obtain ⟨hb, hk⟩ := h.waits b List.mem_cons_self
  by_cases e : c = b
  · subst e
    exact ⟨_, hp.behind s c h.good hb hk, ha c A hA⟩
  · exact ⟨A, by rw [(hp.others s b h.good hb hk c e).2, hA], subset_rfl⟩

theorem Ascending.next : Ascending f rule init (outs (visit b s).1) := by
  obtain ⟨hb, hk⟩ := h.waits b List.mem_cons_self
  have hmono : ∀ c, f.joined init (outs s) c ⊆ f.joined init (outs (visit b s).1) c :=
    joined_mono fun d A hA => ha.grows hp h hA
  intro c A hA
  refine Set.Subset.trans ?_ (through_mono hp.additive _ _ (hmono c))
  by_cases e : c = b
  · subst e
    rw [hp.behind s c h.good hb hk] at hA
    cases hA
    exact subset_rfl
  · rw [(hp.others s b h.good hb hk c e).2] at hA
    exact ha c A hA

end Visit

/-- **A forward pass stops by itself** once the bound is large enough, if a visit that wakes blocks
    adds one of finitely many facts. -/
theorem exists_cap (hf : f.WellFormed) (hp : ForwardPass f rule init Good ins outs visit)
    (h0 : Invariant f rule init Good ins outs [0] s) (houts : ∀ b, outs s b = none)
    (probes : Finset X)
    (hprobe : ∀ s b, Good s → b ∈ f.graph.order → f.Known (outs s) b →
      ∀ A, outs s b = some A → A ⊆ f.throughBlock rule b (f.joined init (outs s) b) →
        (visit b s).2 = [] ∨
          ∃ x ∈ probes, x ∈ f.throughBlock rule b (f.joined init (outs s) b) ∧ x ∉ A)
    (n : Nat) :
    ∃ N, ∀ cap, N ≤ cap → (Worklist.run f.graph.order visit cap [0] s n).converged = true := by
  refine Worklist.exists_cap hf.graph_sound.nodup
    (fun waiting s => Invariant f rule init Good ins outs waiting s ∧ Ascending f rule init (outs s))
    (fun b rest s h => ⟨h.1.next hf hp, h.2.next hp h.1⟩)
    (fun b rest s h => (h.1.waits b List.mem_cons_self).1) probes outs
    (fun b rest s h => ?_) ⟨h0, fun b A hA => ?_⟩ n
  · obtain ⟨hinv, hasc⟩ := h
    obtain ⟨hb, hk⟩ := hinv.waits b List.mem_cons_self
    refine ⟨fun c hc => (hp.others s b hinv.good hb hk c hc).2, _, hp.behind s b hinv.good hb hk, ?_⟩
    exact fun A hA => ⟨hasc b A hA, hprobe s b hinv.good hb hk A hA (hasc b A hA)⟩
  · rw [houts b] at hA
    cases hA

end ForwardPass

end Ownership
