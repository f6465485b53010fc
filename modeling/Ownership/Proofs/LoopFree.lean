import Ownership.Proofs.Flow.Order
import Ownership.Proofs.Loans.Reaching
import Ownership.Proofs.Moves.Pass
import Ownership.Proofs.Verdict

/-!
# One visit for each block

If no edge of a function closes a cycle, each block stands in the order behind all blocks that lead to
it. The worklist takes the first block that waits, so whatever a block wakes comes after it, and no
block is visited twice:

* `Worklist.run_once`: a worklist that visits its blocks one after the other;
* `ForwardPass.run_once`, `Function.trackLive_once`: the passes run in this way, forwards along the
  order and backwards along its reverse;
* `loop_free_visits`: how many visits the three passes need, and when they are too few.
-/

namespace Ownership

open scoped List

/-! ## 1. Worklists -/

section Pairs

variable {done rest : List Nat} {a b c : Nat}

/-- What comes after a block in a list without repeats is in the part behind it. -/
theorem mem_of_sublist_pair (hnd : (done ++ b :: rest).Nodup) (h : [b, c] <+ done ++ b :: rest) :
    c ∈ rest := by
  have hlt := DepthFirst.idxOf_lt_of_sublist hnd h
  have hb : b ∉ done := fun hb => (List.disjoint_of_nodup_append hnd) hb List.mem_cons_self
  rw [List.idxOf_append_of_notMem hb, List.idxOf_cons_self] at hlt
  rcases List.mem_append.mp (h.subset (List.mem_cons_of_mem _ List.mem_cons_self)) with hc | hc
  · rw [List.idxOf_append_of_mem hc] at hlt
    exact absurd (List.idxOf_lt_length_of_mem hc) (by omega)
  · rcases List.mem_cons.mp hc with rfl | hc
    · rw [List.idxOf_append_of_notMem hb, List.idxOf_cons_self] at hlt
      exact absurd hlt (Nat.lt_irrefl _)
    · exact hc

/-- What comes before a block in a list without repeats is in the part ahead of it. -/
theorem mem_of_sublist_pair_left (hnd : (done ++ b :: rest).Nodup) (h : [a, b] <+ done ++ b :: rest) :
    a ∈ done := by
  have hrev : [b, a] <+ rest.reverse ++ b :: done.reverse := by simpa using h.reverse
  have hnd' : (rest.reverse ++ b :: done.reverse).Nodup := by
    simpa using List.nodup_reverse.mpr hnd
  exact List.mem_reverse.mp (mem_of_sublist_pair hnd' hrev)

end Pairs

namespace Worklist

variable {σ : Type} {order : List Nat} {visit : Nat → σ → σ × List Nat}

/-- If nothing waits among the blocks that are done, what waits is among the others. -/
theorem enqueue_sublist {done rest waiting woken : List Nat} (hnd : (done ++ rest).Nodup)
    (hwaiting : ∀ b ∈ waiting, b ∈ rest) (hwoken : ∀ b ∈ woken, b ∈ rest) :
    enqueue (done ++ rest) waiting woken <+ rest := by
  have hdone : enqueue (done ++ rest) waiting woken = enqueue rest waiting woken := by
    rw [enqueue, List.filter_append, List.filter_eq_nil_iff.mpr, List.nil_append, enqueue]
    intro b hb hmem
    have hrest : b ∈ rest := by
      rcases Bool.or_eq_true _ _ ▸ hmem with h | h
      · exact hwaiting b (List.contains_iff_mem.mp h)
      · exact hwoken b (List.contains_iff_mem.mp h)
    exact List.disjoint_of_nodup_append hnd hb hrest
  rw [hdone]
  exact List.filter_sublist

/-- **A worklist whose visits wake only later blocks visits its blocks one after the other.** `I` is
    what the visits preserve, with the blocks that are done: the first block that is not done waits. -/
theorem run_once (hnd : order.Nodup) (I : List Nat → List Nat → σ → Prop)
    (first : ∀ done b rest waiting s, done ++ b :: rest = order → I done waiting s → b ∈ waiting)
    (later : ∀ done b waiting s, I done (b :: waiting) s → ∀ c ∈ (visit b s).2, [b, c] <+ order)
    (step : ∀ done b waiting s, I done (b :: waiting) s →
      I (done ++ [b]) (enqueue order waiting (visit b s).2) (visit b s).1)
    (rest done waiting : List Nat) (s : σ) (cap n : Nat) (horder : done ++ rest = order)
    (hwaiting : waiting <+ rest) (h : I done waiting s) :
    ((run order visit cap waiting s n).converged = true ↔ rest.length ≤ cap) ∧
      (run order visit cap waiting s n).visits = n + min cap rest.length := by
  induction rest generalizing done waiting s cap n with
  | nil =>
    rw [List.sublist_nil.mp hwaiting, run_nil]
    simp
  | cons b rest ih =>
    have hb : b ∈ waiting := first done b rest waiting s horder h
    have hnd' : (done ++ b :: rest).Nodup := horder ▸ hnd
    have hnot : b ∉ rest := (List.nodup_cons.mp (List.nodup_append.mp hnd').2.1).1
    -- the first block that is not done is the first that waits
    cases hwaiting with
    | cons _ hw => exact absurd (hw.subset hb) hnot
    | @cons_cons waiting _ _ hw =>
      cases cap with
      | zero => simp [run]
      | succ cap =>
        have horder' : (done ++ [b]) ++ rest = order := by simpa using horder
        have hnext : enqueue order waiting (visit b s).2 <+ rest := by
          rw [← horder']
          refine enqueue_sublist (horder' ▸ hnd) (fun c hc => hw.subset hc) fun c hc => ?_
          exact mem_of_sublist_pair hnd' (horder ▸ later done b waiting s h c hc)
        have hrun := ih (done ++ [b]) _ (visit b s).1 cap (n + 1) horder' hnext (step _ _ _ _ h)
        rw [run, List.length_cons, Nat.add_le_add_iff_right]
        exact ⟨hrun.1, hrun.2.trans (by omega)⟩

end Worklist

/-! ## 2. The passes -/

variable {f : Function} {types : TypeTable} {live : LiveFacts}

theorem Function.WellFormed.graph_lined (hf : f.WellFormed) : f.graph.Lined := by
  refine Graph.ofTargets_lined ?_ hf.targets_lt
  rw [List.length_map]
  exact hf.nonempty

/-- Without edges that close a cycle, every edge leads on. -/
theorem Graph.Lined.ahead {g : Graph} (h : g.Lined) (hfree : g.backEdges = []) {b t : Nat}
    (hb : b ∈ g.order) (ht : t ∈ g.succsOf b) : [b, t] <+ g.order :=
  (h.followed b hb t ht).resolve_left (hfree ▸ List.not_mem_nil)

theorem Graph.Sound.length_reachable {g : Graph} (hg : g.Sound) :
    g.reachable.length = g.order.length := by
  refine List.Perm.length_eq ((List.perm_ext_iff_of_nodup ?_ hg.nodup).mpr fun b => hg.mem_reachable)
  exact List.nodup_range.filter _

/-- A pass over `n` blocks that visits each block once: it converges if it may make that many visits,
    and else it stops when it has made those it may make. -/
structure OneVisitEach (n cap : Nat) (converged : Bool) (visits : Nat) : Prop where
  enough : converged = true ↔ n ≤ cap
  each : converged = true → visits = n
  short : converged = false → visits = cap

theorem OneVisitEach.of_run {n cap visits : Nat} {converged : Bool} (hc : converged = true ↔ n ≤ cap)
    (hv : visits = 0 + min cap n) : OneVisitEach n cap converged visits := by
  refine ⟨hc, fun h => ?_, fun h => ?_⟩
  · have := hc.mp h
    omega
  · have : ¬ n ≤ cap := fun hle => Bool.false_ne_true (h.symm.trans (hc.mpr hle))
    omega

namespace ForwardPass

variable {X σ : Type} {rule : Point → Set X → Set X} {init : Set X} {Good : σ → Prop}
  {ins outs : σ → Nat → Option (Set X)} {visit : Nat → σ → σ × List Nat} {s : σ}

/-- If exactly the blocks that are done were visited, the next block waits: it is the entry, or an edge
    leads on to it from a block that is done. -/
theorem Invariant.next_waits (hf : f.WellFormed) {done rest waiting : List Nat} {b : Nat}
    (horder : done ++ b :: rest = f.graph.order)
    (h : Invariant f rule init Good ins outs waiting s) (hdone : ∀ c, (outs s c).isSome ↔ c ∈ done) :
    b ∈ waiting := by
  have hnd : (done ++ b :: rest).Nodup := horder ▸ hf.graph_sound.nodup
  have hnot : ¬ (outs s b).isSome = true := by
    rw [hdone b]
    exact fun hb => List.disjoint_of_nodup_append hnd hb List.mem_cons_self
  have hb : b ∈ f.graph.order := horder ▸ List.mem_append_right _ List.mem_cons_self
  rcases (hf.graph_lined.spanned b hb).cases_tail with rfl | ⟨a, _, hedge, hahead⟩
  · exact h.entry.resolve_right hnot
  · have ha : a ∈ done := mem_of_sublist_pair_left hnd (horder ▸ hahead)
    exact (h.woken a ((hdone a).mpr ha) b hedge).resolve_right hnot

/-- **A forward pass over a function without loops visits each block once.** -/
theorem run_once (hf : f.WellFormed) (hp : ForwardPass f rule init Good ins outs visit)
    (h0 : Invariant f rule init Good ins outs [0] s) (houts : ∀ b, outs s b = none)
    (hfree : f.graph.backEdges = []) (cap : Nat) :
    OneVisitEach f.graph.reachable.length cap
      (Worklist.run f.graph.order visit cap [0] s 0).converged
      (Worklist.run f.graph.order visit cap [0] s 0).visits := by
  have hwakes : ∀ b waiting s, Invariant f rule init Good ins outs (b :: waiting) s →
      ∀ c ∈ (visit b s).2, [b, c] <+ f.graph.order := by
    intro b waiting s h c hc
    obtain ⟨hb, hk⟩ := h.waits b List.mem_cons_self
    refine hf.graph_lined.ahead hfree hb ?_
    rcases hp.woken s b h.good hb hk with hw | ⟨hw, _⟩
    · exact hw ▸ hc
    · exact absurd (hw ▸ hc) List.not_mem_nil
  have hvisited : ∀ done b waiting s, Invariant f rule init Good ins outs (b :: waiting) s →
      (∀ c, (outs s c).isSome ↔ c ∈ done) →
      ∀ c, (outs (visit b s).1 c).isSome ↔ c ∈ done ++ [b] := by
    intro done b waiting s h hdone c
    obtain ⟨hb, hk⟩ := h.waits b List.mem_cons_self
    by_cases e : c = b
    · rw [e, hp.behind s b h.good hb hk]
      simp
    · rw [(hp.others s b h.good hb hk c e).2, hdone c]
      simp [e]
  obtain ⟨hc, hv⟩ := Worklist.run_once hf.graph_sound.nodup
    (fun done waiting s => Invariant f rule init Good ins outs waiting s ∧
      ∀ b, (outs s b).isSome ↔ b ∈ done)
    (fun done b rest waiting s horder h => h.1.next_waits hf horder h.2)
    (fun done b waiting s h => hwakes b waiting s h.1)
    (fun done b waiting s h => ⟨h.1.next hf hp, hvisited done b waiting s h.1 h.2⟩)
    f.graph.order [] [0] s cap 0 rfl (List.singleton_sublist.mpr hf.graph_sound.entry)
    ⟨h0, fun b => by simp [houts b]⟩
  rw [hf.graph_sound.length_reachable]
  exact .of_run hc hv

end ForwardPass

namespace Function

theorem trackMoves_once (hf : f.WellFormed) (hfree : f.graph.backEdges = []) (cap : Nat) :
    OneVisitEach f.graph.reachable.length cap (f.trackMoves f.graph types cap).converged
      (f.trackMoves f.graph types cap).visits := by
  obtain ⟨rule, hrule⟩ := exists_moveRule f types
  exact (movesPass hrule).run_once hf (startInvariant hf)
    (fun _ => congrArg (Option.map MoveMap.outcomes) Std.ExtTreeMap.getElem?_empty) hfree cap

theorem trackLoans_once (hf : f.WellFormed) (hfree : f.graph.backEdges = []) (cap : Nat) :
    OneVisitEach f.graph.reachable.length cap (f.trackLoans f.graph types cap live).converged
      (f.trackLoans f.graph types cap live).visits :=
  loansPass.run_once hf (startLoans hf)
    (fun _ => congrArg (Option.map (readLoans _)) Std.ExtTreeMap.getElem?_empty) hfree cap

/-- A visit wakes predecessors only. -/
theorem mem_livePreds_of_woken {tracked : Names} {b c : Nat} {s : LiveSets}
    (h : c ∈ (f.visitLive f.graph tracked b s).2) : c ∈ f.graph.livePreds b := by
  unfold visitLive at h
  dsimp only at h
  split_ifs at h
  · exact absurd h List.not_mem_nil
  · exact h

/-- Backwards, all blocks wait from the beginning, and a block wakes those that lead to it: they come
    later in the reverse of the order. -/
theorem trackLive_once (hf : f.WellFormed) (hfree : f.graph.backEdges = []) (cap : Nat) :
    OneVisitEach f.graph.reachable.length cap (f.trackLive f.graph types cap).converged
      (f.trackLive f.graph types cap).visits := by
  have hnd : f.graph.order.reverse.Nodup := List.nodup_reverse.mpr hf.graph_sound.nodup
  have hrun := Worklist.run_once hnd
    (fun done waiting (_ : LiveSets) => (∀ b ∈ waiting, b ∈ f.graph.order) ∧
      ∀ b ∈ f.graph.order, b ∈ done ∨ b ∈ waiting)
    (fun done b rest waiting _ horder h => ?_)
    (fun done b waiting (s : LiveSets) h c
      (hc : c ∈ (f.visitLive f.graph (f.tracked types) b s).2) => ?_)
    (fun done b waiting _ h => ⟨fun c hc => ?_, fun c hc => ?_⟩)
    f.graph.order.reverse [] f.graph.order.reverse f.firstLive cap 0 rfl (List.Sublist.refl _)
    ⟨fun b hb => List.mem_reverse.mp hb, fun b hb => Or.inr (List.mem_reverse.mpr hb)⟩
  · rw [List.length_reverse, ← hf.graph_sound.length_reachable] at hrun
    exact .of_run hrun.1 hrun.2
  · have hb : b ∈ f.graph.order.reverse := horder ▸ List.mem_append_right _ List.mem_cons_self
    refine (h.2 b (List.mem_reverse.mp hb)).resolve_left fun hdone => ?_
    exact List.disjoint_of_nodup_append (horder ▸ hnd) hdone List.mem_cons_self
  · have hb : b ∈ f.graph.order := h.1 b List.mem_cons_self
    obtain ⟨hord, hedge⟩ := (hf.graph_sound.mem_livePreds hb).mp (mem_livePreds_of_woken hc)
    exact List.reverse_sublist.mpr (hf.graph_lined.ahead hfree hord hedge)
  · exact List.mem_reverse.mp (Worklist.mem_enqueue.mp hc).1
  · rcases h.2 c hc with hdone | hwait
    · exact Or.inl (List.mem_append_left _ hdone)
    · rcases List.mem_cons.mp hwait with rfl | hwait
      · exact Or.inl (List.mem_append_right _ List.mem_cons_self)
      · exact Or.inr (Worklist.mem_enqueue.mpr ⟨List.mem_reverse.mpr hc, Or.inl hwait⟩)

end Function

/-! ## 3. Functions without loops -/

/-- **Without loops, each pass visits each reachable block once**: it converges exactly if it may make
    as many visits as there are reachable blocks, and makes that many. -/
theorem loop_free_visits {d : Draft} (hv : d.validate types = .ok f) (hfree : f.graph.backEdges = [])
    (m : Nat) :
    OneVisitEach f.graph.reachable.length m (f.analyse types m).moves.converged
        (f.analyse types m).moves.visits ∧
      OneVisitEach f.graph.reachable.length m (f.analyse types m).live.converged
        (f.analyse types m).live.visits ∧
      OneVisitEach f.graph.reachable.length m (f.analyse types m).loans.converged
        (f.analyse types m).loans.visits := by
  have hf := Draft.wellFormed_of_validate hv
  exact ⟨f.trackMoves_once hf hfree m, f.trackLive_once hf hfree m, f.trackLoans_once hf hfree m⟩

/-- Two ways lead on from the entry and meet again, and a dead block leads there too. -/
def diamond : Function where
  name := "diamond"
  params := [⟨⟨.param, "c"⟩, []⟩]
  result := ⟨⟨.result, "_ret"⟩, []⟩
  locals := [("c", ⟨⟨.param, "c"⟩, some 1⟩), ("x", ⟨⟨.localVar, "x"⟩, some 2⟩),
    ("r", ⟨⟨.localVar, "r"⟩, some 3⟩), ("_ret", ⟨⟨.result, "_ret"⟩, some 4⟩)]
  blocks := [
    ⟨[.assign ⟨⟨.localVar, "x"⟩, []⟩ (.alloc "Vec")], .branch (.copy ⟨⟨.param, "c"⟩, []⟩) 1 2⟩,
    ⟨[.borrow ⟨⟨.localVar, "r"⟩, []⟩ ⟨⟨.localVar, "x"⟩, []⟩ .unique], .goto 3⟩,
    ⟨[.borrow ⟨⟨.localVar, "r"⟩, []⟩ ⟨⟨.localVar, "x"⟩, []⟩ .unique], .goto 3⟩,
    ⟨[.eval (.call "use" [.copy ⟨⟨.localVar, "r"⟩, []⟩])], .ret⟩,
    ⟨[], .goto 3⟩]

/-- Four of its five blocks are reachable: with three visits every pass stops before it is done. -/
theorem loop_free_visits_diamond :
    diamond.draft.validate relayTypes = .ok diamond ∧ diamond.graph.backEdges = [] ∧
      diamond.graph.reachable = [0, 1, 2, 3] ∧
      (diamond.analyse relayTypes 3).stalled = ["moves", "liveness", "loans"] ∧
      (diamond.analyse relayTypes 4).stalled = [] ∧
      (diamond.analyse relayTypes 9).moves.visits = 4 ∧
      (diamond.analyse relayTypes 9).live.visits = 4 ∧
      (diamond.analyse relayTypes 9).loans.visits = 4 := by
  have hv : diamond.draft.validate relayTypes = .ok diamond := rfl
  have hfree : diamond.graph.backEdges = [] := by decide +kernel
  have hreach : diamond.graph.reachable = [0, 1, 2, 3] := by decide +kernel
  have hvisits := loop_free_visits hv hfree
  rw [hreach] at hvisits
  have hlate : ∀ m, 4 ≤ m → (diamond.analyse relayTypes m).moves.converged = true ∧
      (diamond.analyse relayTypes m).live.converged = true ∧
      (diamond.analyse relayTypes m).loans.converged = true := fun m hm =>
    ⟨(hvisits m).1.enough.mpr hm, (hvisits m).2.1.enough.mpr hm, (hvisits m).2.2.enough.mpr hm⟩
  obtain ⟨hmoves, hlive, hloans⟩ := hlate 9 (by decide)
  refine ⟨hv, hfree, hreach, ?_, Analysis.stalled_eq_nil.mpr (hlate 4 (le_refl 4)),
    (hvisits 9).1.each hmoves, (hvisits 9).2.1.each hlive, (hvisits 9).2.2.each hloans⟩
  have hshort : ∀ c : Bool, (c = true ↔ 4 ≤ 3) → c = false := by decide
  rw [Analysis.stalled, hshort _ (hvisits 3).1.enough, hshort _ (hvisits 3).2.1.enough,
    hshort _ (hvisits 3).2.2.enough]
  rfl

end Ownership
