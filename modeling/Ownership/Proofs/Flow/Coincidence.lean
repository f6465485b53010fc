import Mathlib.Data.Set.Lattice
import Ownership.Flow.Worklist
import Ownership.Proofs.Flow.Route

/-!
# Forward passes agree with routes

A forward pass keeps a set of facts for each block and joins what comes out of the predecessors. The
facts that hold along single routes are never joined. For rules that are additive, that is, under
which every fact behind a point comes from one fact before it or from none at all, the two agree:

* `along`, `Function.collect`: the facts along one route, and those that hold along some route;
* `Additive`: a rule passes through the union of any family of sets;
* `Worklist.run_invariant`: what every visit preserves holds when the worklist stops;
* `ForwardPass`: what a visit of a forward pass does, in terms of the facts it keeps;
* `ForwardPass.sub_collect`: at any time, the facts kept hold along some route;
* `ForwardPass.eq_collect`: when nothing waits, they are exactly those that hold along some route.
-/

namespace Ownership

variable {X σ : Type}

/-! ## 1. Additive rules -/

/-- The rule passes through unions. -/
def Additive (r : Set X → Set X) : Prop :=
  ∀ (ι : Type) [Nonempty ι] (S : ι → Set X), r (⋃ i, S i) = ⋃ i, r (S i)

namespace Additive

variable {r s : Set X → Set X}

theorem mono (h : Additive r) {A B : Set X} (hAB : A ⊆ B) : r A ⊆ r B := by
  have hB : B = ⋃ i : Bool, cond i A B := by
    rw [← Set.union_eq_iUnion, Set.union_eq_right.mpr hAB]
  have hr : r B = ⋃ i : Bool, r (cond i A B) := by
    conv_lhs => rw [hB]
    exact h _ _
  rw [hr]
  exact Set.subset_iUnion (fun i : Bool => r (cond i A B)) true

theorem comp (hr : Additive r) (hs : Additive s) : Additive fun A => r (s A) := by
  intro ι _ S
  show r (s (⋃ i, S i)) = ⋃ i, r (s (S i))
  rw [hs ι S, hr]

theorem id : Additive fun A : Set X => A := fun _ _ _ => rfl

/-- A rule that generates facts and takes the others over one by one is additive. -/
theorem of_gen (gen : X → Prop) (take : X → X → Prop) :
    Additive fun A => {x | gen x ∨ ∃ y ∈ A, take y x} := by
  intro ι _ S
  ext x
  simp only [Set.mem_ofPred_eq, Set.mem_iUnion]
  constructor
  · intro h
    rcases h with hx | ⟨y, ⟨i, hy⟩, hx⟩
    · exact ⟨Classical.arbitrary ι, Or.inl hx⟩
    · exact ⟨i, Or.inr ⟨y, hy, hx⟩⟩
  · intro h
    obtain ⟨i, hx | ⟨y, hy, hx⟩⟩ := h
    · exact Or.inl hx
    · exact Or.inr ⟨y, ⟨i, hy⟩, hx⟩

end Additive

/-! ## 2. Facts along routes -/

section Routes

variable {f : Function} (rule : Point → Set X → Set X) (init : Set X)

/-- The facts along a route: each point that is passed changes them by its own rule. -/
def along : List Point → Set X
  | [] => init
  | p :: ps => rule p (along ps)

/-- The facts that hold at a point along some route. -/
def Function.collect (f : Function) (p : Point) : Set X :=
  {x | ∃ ps, f.Route p ps ∧ x ∈ along rule init ps}

/-- The facts behind the first `n` points of a block, from those before it. -/
def through (b : Nat) : Nat → Set X → Set X
  | 0, A => A
  | n + 1, A => rule ⟨b, n⟩ (through b n A)

/-- The facts behind a block. -/
def Function.throughBlock (f : Function) (b : Nat) (A : Set X) : Set X :=
  through rule b ((f.block b).statements.length + 1) A

variable {rule init}

theorem through_mono (hr : ∀ p, Additive (rule p)) (b n : Nat) {A B : Set X} (h : A ⊆ B) :
    through rule b n A ⊆ through rule b n B := by
  induction n with
  | zero => exact h
  | succ n ih => exact (hr _).mono ih

/-- An additive rule acts on the collected facts route by route. -/
theorem Additive.map_collect {r : Set X → Set X} (hr : Additive r) {p : Point} (hp : f.Reaches p) :
    r (f.collect rule init p) = {x | ∃ ps, f.Route p ps ∧ x ∈ r (along rule init ps)} := by
  have hne : Nonempty { ps // f.Route p ps } := ⟨⟨hp.choose, hp.choose_spec⟩⟩
  have hcol : f.collect rule init p = ⋃ ps : { ps // f.Route p ps }, along rule init ps.1 := by
    ext x
    simp only [Function.collect, Set.mem_ofPred_eq, Set.mem_iUnion, Subtype.exists, exists_prop]
  rw [hcol, hr]
  ext x
  simp only [Set.mem_ofPred_eq, Set.mem_iUnion, Subtype.exists, exists_prop]

/-- Inside a block there is one way on: the collected facts follow the rules. -/
theorem through_collect (hr : ∀ p, Additive (rule p)) {b n : Nat} (hb : f.Reaches ⟨b, 0⟩)
    (hn : n ≤ (f.block b).statements.length) :
    through rule b n (f.collect rule init ⟨b, 0⟩) = f.collect rule init ⟨b, n⟩ := by
  induction n with
  | zero => rfl
  | succ n ih =>
    have hn' : n < (f.block b).statements.length := hn
    rw [through, ih hn'.le, (hr _).map_collect (hb.within hn'.le)]
    ext x
    constructor
    · intro h
      obtain ⟨ps, hps, hx⟩ := h
      exact ⟨⟨b, n⟩ :: ps, hps.step (.next hn'), hx⟩
    · intro h
      obtain ⟨ps, hps, hx⟩ := h
      obtain ⟨_, qs, rfl, hqs⟩ := Function.route_next_iff.mp hps
      exact ⟨qs, hqs, hx⟩

/-- What is collected behind a block holds at the start of every block it jumps to. -/
theorem throughBlock_collect_sub (hr : ∀ p, Additive (rule p)) {b t : Nat} (hb : f.Reaches ⟨b, 0⟩)
    (ht : t ∈ (f.block b).terminator.targets) :
    f.throughBlock rule b (f.collect rule init ⟨b, 0⟩) ⊆ f.collect rule init ⟨t, 0⟩ := by
  intro x hx
  rw [Function.throughBlock, through, through_collect hr hb le_rfl,
    (hr _).map_collect (hb.within le_rfl)] at hx
  obtain ⟨ps, hps, hx⟩ := hx
  exact ⟨_, hps.step (.jump ht), hx⟩

end Routes

/-! ## 3. Worklists -/

namespace Worklist

/-- **What every visit preserves holds when the worklist stops**; if it stops because nothing waits,
    it holds with nothing waiting. -/
theorem run_invariant {order : List Nat} {visit : Nat → σ → σ × List Nat}
    (I : List Nat → σ → Prop)
    (step : ∀ b rest s, I (b :: rest) s → I (enqueue order rest (visit b s).2) (visit b s).1)
    (cap : Nat) (waiting : List Nat) (s : σ) (n : Nat) (h : I waiting s) :
    ∃ left, I left (run order visit cap waiting s n).state ∧
      ((run order visit cap waiting s n).converged = true → left = []) := by
  induction cap generalizing waiting s n with
  | zero =>
    cases waiting with
    | nil => exact ⟨[], h, fun _ => rfl⟩
    | cons b rest => exact ⟨b :: rest, h, fun hc => nomatch hc⟩
  | succ cap ih =>
    cases waiting with
    | nil => exact ⟨[], h, fun _ => rfl⟩
    | cons b rest => exact ih _ _ _ (step b rest s h)

end Worklist

/-! ## 4. Forward passes -/

section Forward

variable (f : Function) (rule : Point → Set X → Set X) (init : Set X)

/-- The facts before a block, from those behind the blocks that were visited. -/
def Function.joined (outs : Nat → Option (Set X)) (b : Nat) : Set X :=
  {x | (b = 0 ∧ x ∈ init) ∨ ∃ p ∈ f.graph.livePreds b, ∃ A, outs p = some A ∧ x ∈ A}

/-- Something is known about what comes into the block. -/
def Function.Known (outs : Nat → Option (Set X)) (b : Nat) : Prop :=
  b = 0 ∨ ∃ p ∈ f.graph.livePreds b, (outs p).isSome

/-- A visit of a forward pass over states that are `Good`, with the facts that the state keeps before
    and behind blocks read by `ins` and `outs`. -/
structure ForwardPass (Good : σ → Prop) (ins outs : σ → Nat → Option (Set X))
    (visit : Nat → σ → σ × List Nat) : Prop where
  additive : ∀ p, Additive (rule p)
  good : ∀ s b, Good s → b ∈ f.graph.order → f.Known (outs s) b → Good (visit b s).1
  before : ∀ s b, Good s → b ∈ f.graph.order → f.Known (outs s) b →
    ins (visit b s).1 b = some (f.joined init (outs s) b)
  behind : ∀ s b, Good s → b ∈ f.graph.order → f.Known (outs s) b →
    outs (visit b s).1 b = some (f.throughBlock rule b (f.joined init (outs s) b))
  others : ∀ s b, Good s → b ∈ f.graph.order → f.Known (outs s) b → ∀ c, c ≠ b →
    ins (visit b s).1 c = ins s c ∧ outs (visit b s).1 c = outs s c
  woken : ∀ s b, Good s → b ∈ f.graph.order → f.Known (outs s) b →
    (visit b s).2 = f.graph.succsOf b ∨ (visit b s).2 = [] ∧ outs (visit b s).1 b = outs s b

namespace ForwardPass

variable {f rule init}

/-- What the visits preserve. A visited block that does not wait satisfies its equation, and every
    fact that is kept holds along some route. -/
structure Invariant (f : Function) (rule : Point → Set X → Set X) (init : Set X)
    (Good : σ → Prop) (ins outs : σ → Nat → Option (Set X)) (waiting : List Nat) (s : σ) : Prop where
  good : Good s
  waits : ∀ b ∈ waiting, b ∈ f.graph.order ∧ f.Known (outs s) b
  entry : 0 ∈ waiting ∨ (outs s 0).isSome
  woken : ∀ b, (outs s b).isSome → ∀ t ∈ f.graph.succsOf b, t ∈ waiting ∨ (outs s t).isSome
  settled : ∀ b, (outs s b).isSome → b ∉ waiting →
    ins s b = some (f.joined init (outs s) b) ∧
      outs s b = some (f.throughBlock rule b (f.joined init (outs s) b))
  before : ∀ b A, ins s b = some A → f.Reaches ⟨b, 0⟩ ∧ A ⊆ f.collect rule init ⟨b, 0⟩
  behind : ∀ b A, outs s b = some A → f.Reaches ⟨b, 0⟩ ∧
    A ⊆ f.throughBlock rule b (f.collect rule init ⟨b, 0⟩)

variable {Good : σ → Prop} {ins outs : σ → Nat → Option (Set X)} {visit : Nat → σ → σ × List Nat}
  {s : σ} {b : Nat} {rest waiting : List Nat}

/-- What is joined before a block holds along some route, if what is kept behind the others does. -/
theorem Invariant.joined_sub (hf : f.WellFormed) (hr : ∀ p, Additive (rule p))
    (h : Invariant f rule init Good ins outs waiting s) (hb : b ∈ f.graph.order)
    (hk : f.Known (outs s) b) :
    f.Reaches ⟨b, 0⟩ ∧ f.joined init (outs s) b ⊆ f.collect rule init ⟨b, 0⟩ := by
  have hpred : ∀ p ∈ f.graph.livePreds b, b ∈ (f.block p).terminator.targets := fun p hp =>
    Function.mem_succsOf.mp ((hf.graph_sound.mem_livePreds hb).mp hp).2
  constructor
  · rcases hk with rfl | ⟨p, hp, hs⟩
    · exact ⟨[], .start⟩
    · obtain ⟨A, hA⟩ := Option.isSome_iff_exists.mp hs
      exact (h.behind p A hA).1.jump (hpred p hp)
  · intro x hex
    rcases hex with ⟨rfl, hx⟩ | ⟨p, hp, A, hA, hx⟩
    · exact ⟨[], .start, hx⟩
    · obtain ⟨hreach, hsub⟩ := h.behind p A hA
      exact throughBlock_collect_sub hr hreach (hpred p hp) (hsub hx)

/-- The facts joined before a block do not change with what is kept behind a block that is no
    predecessor of it. -/
theorem joined_congr {o o' : Nat → Option (Set X)} {c : Nat}
    (h : ∀ p ∈ f.graph.livePreds c, o p = o' p) : f.joined init o c = f.joined init o' c := by
  ext x
  refine or_congr_right (exists_congr fun p => and_congr_right fun hp => ?_)
  rw [h p hp]

section Visit

variable (hf : f.WellFormed) (hp : ForwardPass f rule init Good ins outs visit)
  (h : Invariant f rule init Good ins outs (b :: rest) s)

include hp h

/-- A block that was visited stays so. -/
theorem Invariant.grows {c : Nat} (hc : (outs s c).isSome) : (outs (visit b s).1 c).isSome := by
  obtain ⟨hb, hk⟩ := h.waits b List.mem_cons_self
  by_cases e : c = b
  · rw [e, hp.behind s b h.good hb hk]
    rfl
  · rw [(hp.others s b h.good hb hk c e).2]
    exact hc

omit hp in
/-- The others keep waiting. -/
theorem Invariant.keeps {c : Nat} (hc : c ∈ b :: rest) (e : c ≠ b) :
    c ∈ Worklist.enqueue f.graph.order rest (visit b s).2 :=
  Worklist.mem_enqueue.mpr ⟨(h.waits c hc).1, Or.inl ((List.mem_cons.mp hc).resolve_left e)⟩

include hf

/-- What is joined before a block that does not wait is as it was: it would wait for a change behind
    the visited block. -/
theorem Invariant.joined_next {c : Nat} (hord : c ∈ f.graph.order)
    (hc : c ∉ Worklist.enqueue f.graph.order rest (visit b s).2) :
    f.joined init (outs (visit b s).1) c = f.joined init (outs s) c := by
  obtain ⟨hb, hk⟩ := h.waits b List.mem_cons_self
  refine joined_congr fun p hpc => ?_
  by_cases e : p = b
  · subst e
    rcases hp.woken s p h.good hb hk with hw | ⟨_, hsame⟩
    · have hsucc := ((hf.graph_sound.mem_livePreds hord).mp hpc).2
      exact absurd (Worklist.mem_enqueue.mpr ⟨hord, Or.inr (hw ▸ hsucc)⟩) hc
    · exact hsame
  · exact (hp.others s b h.good hb hk p e).2

theorem Invariant.waits_next {c : Nat} (hc : c ∈ Worklist.enqueue f.graph.order rest (visit b s).2) :
    c ∈ f.graph.order ∧ f.Known (outs (visit b s).1) c := by
  obtain ⟨hb, hk⟩ := h.waits b List.mem_cons_self
  obtain ⟨hord, hc⟩ := Worklist.mem_enqueue.mp hc
  refine ⟨hord, ?_⟩
  rcases hc with hc | hc
  · rcases (h.waits c (List.mem_cons_of_mem _ hc)).2 with h0 | ⟨p, hpc, hs⟩
    · exact Or.inl h0
    · exact Or.inr ⟨p, hpc, h.grows hp hs⟩
  · rcases hp.woken s b h.good hb hk with hw | ⟨hw, _⟩
    · rw [hw] at hc
      refine Or.inr ⟨b, (hf.graph_sound.mem_livePreds hord).mpr ⟨hb, hc⟩, ?_⟩
      rw [hp.behind s b h.good hb hk]
      rfl
    · rw [hw] at hc
      cases hc

theorem Invariant.woken_next {c : Nat} (hc : (outs (visit b s).1 c).isSome) {t : Nat}
    (ht : t ∈ f.graph.succsOf c) (e : t ≠ b) :
    t ∈ Worklist.enqueue f.graph.order rest (visit b s).2 ∨ (outs (visit b s).1 t).isSome := by
  obtain ⟨hb, hk⟩ := h.waits b List.mem_cons_self
  by_cases ec : c = b
  · subst ec
    rcases hp.woken s c h.good hb hk with hw | ⟨_, hsame⟩
    · exact Or.inl (Worklist.mem_enqueue.mpr ⟨hf.graph_sound.closed c hb t ht, Or.inr (hw ▸ ht)⟩)
    · rw [hsame] at hc
      exact (h.woken c hc t ht).imp (h.keeps · e) (h.grows hp)
  · rw [(hp.others s b h.good hb hk c ec).2] at hc
    exact (h.woken c hc t ht).imp (h.keeps · e) (h.grows hp)

/-- **A visit preserves the invariant.** -/
theorem Invariant.next :
    Invariant f rule init Good ins outs (Worklist.enqueue f.graph.order rest (visit b s).2)
      (visit b s).1 := by
  obtain ⟨hb, hk⟩ := h.waits b List.mem_cons_self
  have hbefore := hp.before s b h.good hb hk
  have hbehind := hp.behind s b h.good hb hk
  have hothers := hp.others s b h.good hb hk
  obtain ⟨hreach, hsub⟩ := h.joined_sub hf hp.additive hb hk
  have hvisited : ∀ c, c = b → (outs (visit b s).1 c).isSome := by
    rintro c rfl
    rw [hbehind]
    rfl
  refine ⟨hp.good s b h.good hb hk, fun c hc => h.waits_next hf hp hc, ?_, ?_, ?_, ?_, ?_⟩
  · by_cases e : 0 = b
    · exact Or.inr (hvisited 0 e)
    · exact h.entry.imp (h.keeps · e) (h.grows hp)
  · intro c hc t ht
    by_cases e : t = b
    · exact Or.inr (hvisited t e)
    · exact h.woken_next hf hp hc ht e
  · intro c hc hnot
    by_cases ec : c = b
    · subst ec
      rw [h.joined_next hf hp hb hnot]
      exact ⟨hbefore, hbehind⟩
    · rw [(hothers c ec).2] at hc
      obtain ⟨A, hA⟩ := Option.isSome_iff_exists.mp hc
      obtain ⟨ps, hr⟩ := (h.behind c A hA).1
      rw [h.joined_next hf hp (hr.mem_order hf).1 hnot, (hothers c ec).1, (hothers c ec).2]
      exact h.settled c hc fun hw => hnot (h.keeps hw ec)
  · intro c A hA
    by_cases ec : c = b
    · subst ec
      rw [hbefore] at hA
      cases hA
      exact ⟨hreach, hsub⟩
    · rw [(hothers c ec).1] at hA
      exact h.before c A hA
  · intro c A hA
    by_cases ec : c = b
    · subst ec
      rw [hbehind] at hA
      cases hA
      exact ⟨hreach, through_mono hp.additive _ _ hsub⟩
    · rw [(hothers c ec).2] at hA
      exact h.behind c A hA

end Visit

/-! ## 5. When the worklist stops -/

/-- With nothing waiting, the facts along a route are among those kept. -/
theorem Invariant.along_sub (hf : f.WellFormed) (hr : ∀ p, Additive (rule p))
    (h : Invariant f rule init Good ins outs [] s) {p : Point} {ps : List Point}
    (hp : f.Route p ps) :
    ∃ A, ins s p.block = some A ∧ along rule init ps ⊆ through rule p.block p.stmt A := by
  have hsettled : ∀ b, (outs s b).isSome → ins s b = some (f.joined init (outs s) b) ∧
      outs s b = some (f.throughBlock rule b (f.joined init (outs s) b)) :=
    fun b hb => h.settled b hb List.not_mem_nil
  -- carried along: the block of the point was visited
  suffices hs : (outs s p.block).isSome ∧
      along rule init ps ⊆ through rule p.block p.stmt (f.joined init (outs s) p.block) from
    ⟨_, (hsettled _ hs.1).1, hs.2⟩
  induction hp with
  | start =>
    exact ⟨h.entry.resolve_left List.not_mem_nil, fun x hx => Or.inl ⟨rfl, hx⟩⟩
  | step hr' hstep ih =>
    obtain ⟨hvis, hsub⟩ := ih
    cases hstep with
    | next => exact ⟨hvis, (hr _).mono hsub⟩
    | @jump b t ht =>
      have hsucc := Function.mem_succsOf.mpr ht
      have hord := (hr'.mem_order hf).1
      refine ⟨(h.woken b hvis t hsucc).resolve_left List.not_mem_nil, fun x hx => Or.inr ?_⟩
      exact ⟨b, (hf.graph_sound.mem_livePreds (hf.graph_sound.closed b hord t hsucc)).mpr ⟨hord, hsucc⟩,
        _, (hsettled b hvis).2, (hr _).mono hsub hx⟩

/-- At first only the entry waits, and only the facts before it are kept. -/
theorem Invariant.start (hf : f.WellFormed) (hgood : Good s) (houts : ∀ b, outs s b = none)
    (hins : ∀ b A, ins s b = some A → b = 0 ∧ A = init) :
    Invariant f rule init Good ins outs [0] s where
  good := hgood
  waits := by
    intro b hb
    cases List.mem_singleton.mp hb
    exact ⟨hf.graph_sound.entry, Or.inl rfl⟩
  entry := Or.inl List.mem_cons_self
  woken b hb := by
    rw [houts b] at hb
    cases hb
  settled b hb := by
    rw [houts b] at hb
    cases hb
  before := by
    intro b A hA
    obtain ⟨rfl, rfl⟩ := hins b A hA
    exact ⟨⟨[], .start⟩, fun x hx => ⟨[], .start, hx⟩⟩
  behind b A hA := by
    rw [houts b] at hA
    cases hA

variable {cap n : Nat}

theorem good_final (hf : f.WellFormed) (hp : ForwardPass f rule init Good ins outs visit)
    (h0 : Invariant f rule init Good ins outs [0] s) :
    Good (Worklist.run f.graph.order visit cap [0] s n).state := by
  obtain ⟨left, h, _⟩ := Worklist.run_invariant (Invariant f rule init Good ins outs)
    (fun _ _ _ h => h.next hf hp) cap [0] s n h0
  exact h.good

/-- The facts kept before a block when the worklist stops hold along some route. -/
theorem sub_collect (hf : f.WellFormed) (hp : ForwardPass f rule init Good ins outs visit)
    (h0 : Invariant f rule init Good ins outs [0] s) {A : Set X}
    (hA : ins (Worklist.run f.graph.order visit cap [0] s n).state b = some A) :
    f.Reaches ⟨b, 0⟩ ∧ A ⊆ f.collect rule init ⟨b, 0⟩ := by
  obtain ⟨left, h, _⟩ := Worklist.run_invariant (Invariant f rule init Good ins outs)
    (fun _ _ _ h => h.next hf hp) cap [0] s n h0
  exact h.before b A hA

/-- **A forward pass that converged keeps exactly the facts that hold along some route.** -/
theorem eq_collect (hf : f.WellFormed) (hp : ForwardPass f rule init Good ins outs visit)
    (h0 : Invariant f rule init Good ins outs [0] s)
    (hc : (Worklist.run f.graph.order visit cap [0] s n).converged = true) {p : Point}
    (hreach : f.Reaches p) :
    ∃ A, ins (Worklist.run f.graph.order visit cap [0] s n).state p.block = some A ∧
      through rule p.block p.stmt A = f.collect rule init p := by
  obtain ⟨left, h, hleft⟩ := Worklist.run_invariant (Invariant f rule init Good ins outs)
    (fun _ _ _ h => h.next hf hp) cap [0] s n h0
  rw [hleft hc] at h
  obtain ⟨ps, hr⟩ := hreach
  obtain ⟨A, hA, _⟩ := h.along_sub hf hp.additive hr
  refine ⟨A, hA, Set.Subset.antisymm ?_ ?_⟩
  · obtain ⟨hentry, hsub⟩ := h.before _ A hA
    rw [← through_collect hp.additive hentry (hr.mem_order hf).2]
    exact through_mono hp.additive _ _ hsub
  · intro x hex
    obtain ⟨qs, hqs, hx⟩ := hex
    obtain ⟨B, hB, hsub⟩ := h.along_sub hf hp.additive hqs
    rw [hA] at hB
    cases hB
    exact hsub hx

end ForwardPass

end Forward

end Ownership
