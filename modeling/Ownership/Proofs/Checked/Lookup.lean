import Mathlib.Data.List.Basic
import Mathlib.Data.List.Nodup
import Ownership.Flow.Worklist
import Ownership.Function.Draft
import Ownership.Function.Point

/-!
# Lookups that may miss

The passes look things up all the time: blocks by number, variables by name, loans by number, the
place of a block in the visiting order. As they are defined, a lookup that finds nothing goes on with
a default. The modules of this folder define the passes once more, with every such lookup checked: it
gives what is there, or stops with a `Miss`. For what validation lets through, both are the same.

The passes also write things out: missing paths, to put them in order, and places, to name them. A
number of too many digits cannot be written out, and the pass stops there as well. Validation does not
see to that, so a pass is compared with its plain definition up to such a stop (`Gives`).

* `Miss`, `found`, `written`: why a pass stops, a checked lookup, and what is written out;
* `mapM_ok`, `mapM_found`, `foldlM_ok`: a list of computations none of which misses;
* `Gives`: a computation that misses nothing, and stops at most because of a number;
* `Worklist.runChecked`: the loop of the passes, where what waits is a set and the block to visit next
  is looked up in the order; `runChecked_gives` compares it with `Worklist.run`, and
  `runChecked_single` and `runChecked_all` do so for the two ways in which the passes start.
-/

namespace Ownership

/-- Why a pass stops: something is looked up and not there, or cannot be written out. -/
inductive Miss where
  /-- The block has no terminator to read. -/
  | terminator (b : Nat)
  /-- A jump target is no number of a block. -/
  | target (n : Node)
  | block (b : Nat)
  /-- A block waits that has no place in the visiting order. -/
  | order (b : Nat)
  /-- Nothing was written down for the block. -/
  | facts (b : Nat)
  /-- The name is not declared. -/
  | root (name : String)
  /-- The place has no dereference to write through. -/
  | deref (p : Place)
  | loan (i : Nat)
  /-- The loans made at the point are used up before its borrows are. -/
  | issued (pt : Point)
  /-- A number has too many digits to be written out. -/
  | tooLong

/-- What is there, or the miss. -/
def found {α : Type} (m : Miss) : Option α → Except Miss α
  | some a => .ok a
  | none => .error m

@[simp] theorem found_some {α : Type} (m : Miss) (a : α) : found m (some a) = .ok a := rfl

/-- What has been written out, if all of it can be. -/
def written {α : Type} (short : Bool) (a : α) : Except Miss α :=
  if short then .ok a else .error .tooLong

/-! ## 1. Lists of computations -/

section Lists

variable {ε α β σ : Type}

@[simp] theorem ok_bind (a : α) (k : α → Except ε β) : (Except.ok a >>= k) = k a := rfl

@[simp] theorem pure_eq_ok (a : α) : (pure a : Except ε α) = .ok a := rfl

theorem mapM_ok {xs : List α} {k : α → Except ε β} {g : α → β} (h : ∀ x ∈ xs, k x = .ok (g x)) :
    xs.mapM k = .ok (xs.map g) := by
  induction xs with
  | nil => rfl
  | cons x xs ih =>
    have hx := h x List.mem_cons_self
    have hxs := ih fun y hy => h y (List.mem_cons_of_mem _ hy)
    rw [List.mapM_cons, hx, hxs]
    rfl

/-- A list of lookups none of which misses. -/
theorem mapM_found {m : α → Miss} {o : α → Option β} {xs : List α} (h : ∀ x ∈ xs, (o x).isSome) :
    xs.mapM (fun x => found (m x) (o x)) = .ok (xs.filterMap o) := by
  induction xs with
  | nil => rfl
  | cons x xs ih =>
    obtain ⟨y, hy⟩ := Option.isSome_iff_exists.mp (h x List.mem_cons_self)
    have hxs := ih fun z hz => h z (List.mem_cons_of_mem _ hz)
    rw [List.mapM_cons, hy, hxs, List.filterMap_cons, hy]
    rfl

/-- A fold none of whose steps misses as long as an invariant holds. -/
theorem foldlM_ok (P : σ → Prop) {k : σ → α → Except ε σ} {g : σ → α → σ} {xs : List α}
    (h : ∀ s, P s → ∀ x ∈ xs, k s x = .ok (g s x) ∧ P (g s x)) {s : σ} (hs : P s) :
    xs.foldlM k s = .ok (xs.foldl g s) ∧ P (xs.foldl g s) := by
  induction xs generalizing s with
  | nil => exact ⟨rfl, hs⟩
  | cons x xs ih =>
    obtain ⟨hx, hnext⟩ := h s hs x List.mem_cons_self
    obtain ⟨hxs, hlast⟩ := ih (fun t ht y hy => h t ht y (List.mem_cons_of_mem _ hy)) hnext
    rw [List.foldlM_cons, hx]
    exact ⟨hxs, hlast⟩

end Lists

/-! ## 2. Computations that write -/

section Gives

variable {α β σ : Type} {short : Prop} {x : Except Miss α} {a : α}

/-- The computation gives `a`; only if `short` does not hold may it stop because of a number. -/
def Gives (short : Prop) (x : Except Miss α) (a : α) : Prop :=
  x = .ok a ∨ ¬ short ∧ x = .error .tooLong

theorem Gives.of_eq (h : x = .ok a) : Gives short x a := Or.inl h

theorem Gives.eq_ok (h : Gives short x a) (hs : short) : x = .ok a :=
  h.resolve_right fun hx => hx.1 hs

theorem Gives.bind {k : α → Except Miss β} {b : β} (h : Gives short x a) (hk : Gives short (k a) b) :
    Gives short (x >>= k) b := by
  rcases h with rfl | ⟨hs, rfl⟩
  · exact hk
  · exact Or.inr ⟨hs, rfl⟩

theorem gives_written {ok : Bool} (h : short → ok = true) (a : α) : Gives short (written ok a) a := by
  cases ok with
  | true => exact Or.inl rfl
  | false => exact Or.inr ⟨fun hs => Bool.false_ne_true (h hs), rfl⟩

theorem mapM_gives {xs : List α} {k : α → Except Miss β} {g : α → β}
    (h : ∀ x ∈ xs, Gives short (k x) (g x)) : Gives short (xs.mapM k) (xs.map g) := by
  induction xs with
  | nil => exact Or.inl rfl
  | cons x xs ih =>
    rw [List.mapM_cons, List.map_cons]
    refine (h x List.mem_cons_self).bind ?_
    exact (ih fun y hy => h y (List.mem_cons_of_mem _ hy)).bind (Or.inl rfl)

/-- A fold whose steps give what they should as long as an invariant holds. -/
theorem foldlM_gives (P : σ → Prop) {k : σ → α → Except Miss σ} {g : σ → α → σ} {xs : List α}
    (h : ∀ s, P s → ∀ x ∈ xs, Gives short (k s x) (g s x) ∧ P (g s x)) {s : σ} (hs : P s) :
    Gives short (xs.foldlM k s) (xs.foldl g s) ∧ P (xs.foldl g s) := by
  induction xs generalizing s with
  | nil => exact ⟨Or.inl rfl, hs⟩
  | cons x xs ih =>
    obtain ⟨hx, hnext⟩ := h s hs x List.mem_cons_self
    obtain ⟨hxs, hlast⟩ := ih (fun t ht y hy => h t ht y (List.mem_cons_of_mem _ hy)) hnext
    rw [List.foldlM_cons, List.foldl_cons]
    exact ⟨hx.bind hxs, hlast⟩

end Gives

/-! ## 3. The worklist -/

namespace Worklist

variable {σ : Type}

/-- A visit that wakes some blocks or none. -/
theorem mem_of_woken {q : Prop} [Decidable q] {s t : σ} {bs : List Nat} {c : Nat}
    (h : c ∈ (if q then (s, []) else (t, bs)).2) : c ∈ bs := by
  split_ifs at h
  · cases h
  · exact h

/-- The waiting block that comes first in the order. Every block that waits is looked up there. -/
def pick (order : List Nat) (b : Nat) (rest : List Nat) : Except Miss Nat :=
  match (b :: rest).find? fun c => !order.contains c with
  | some c => .error (.order c)
  | none => .ok ((order.find? fun c => (b :: rest).contains c).getD b)

/-- Visit waiting blocks, at most `cap` of them. What waits is kept as a set: a block may be listed
    twice, and is gone when it is visited. -/
def runChecked (order : List Nat) (visit : Nat → σ → Except Miss (σ × List Nat)) :
    (cap : Nat) → (waiting : List Nat) → σ → (visits : Nat) → Except Miss (Outcome σ)
  | _, [], s, n => .ok ⟨s, n, true⟩
  | 0, _ :: _, s, n => .ok ⟨s, n, false⟩
  | cap + 1, b :: rest, s, n => do
    let c ← pick order b rest
    let r ← visit c s
    runChecked order visit cap ((b :: rest).filter (fun d => d != c) ++ r.2) r.1 (n + 1)

theorem pick_eq {order : List Nat} {b : Nat} {rest : List Nat} (h : ∀ c ∈ b :: rest, c ∈ order) :
    ∃ c later, pick order b rest = .ok c ∧
      order.filter (fun d => (b :: rest).contains d) = c :: later := by
  have hall : (b :: rest).find? (fun c => !order.contains c) = none :=
    List.find?_eq_none.mpr fun c hc => by simp [h c hc]
  have hb : b ∈ order.filter fun d => (b :: rest).contains d :=
    List.mem_filter.mpr ⟨h b List.mem_cons_self, by simp⟩
  obtain ⟨c, later, hsplit⟩ := List.exists_cons_of_ne_nil (List.ne_nil_of_mem hb)
  have hhead : (order.filter fun d => (b :: rest).contains d).head? =
      order.find? fun d => (b :: rest).contains d := List.head?_filter
  rw [hsplit, List.head?_cons] at hhead
  refine ⟨c, later, ?_, hsplit⟩
  rw [pick, hall]
  exact congrArg (fun o : Option Nat => Except.ok (o.getD b)) hhead.symm

/-- Without the block that is visited, what waits and what is woken wait in the order. -/
theorem enqueue_eq_filter {order waiting later : List Nat} {c : Nat} (hd : order.Nodup)
    (hsplit : order.filter (fun d => waiting.contains d) = c :: later) (woken : List Nat) :
    enqueue order later woken =
      order.filter fun d => (waiting.filter (fun d => d != c) ++ woken).contains d := by
  have hsub : ∀ d, d ∈ c :: later ↔ d ∈ order ∧ d ∈ waiting := fun d => by
    rw [← hsplit, List.mem_filter, List.contains_iff_mem]
  have hlater : ∀ d ∈ order, d ∈ later ↔ d ∈ waiting ∧ d ≠ c := by
    have hnot : c ∉ later := (List.nodup_cons.mp (hsplit ▸ hd.filter _)).1
    intro d hd
    constructor
    · intro hm
      exact ⟨((hsub d).mp (List.mem_cons_of_mem _ hm)).2, fun e => hnot (e ▸ hm)⟩
    · intro hm
      exact (List.mem_cons.mp ((hsub d).mpr ⟨hd, hm.1⟩)).resolve_left hm.2
  refine List.filter_congr fun d hd => ?_
  rw [Bool.eq_iff_iff, Bool.or_eq_true]
  simp only [List.contains_iff_mem, List.mem_append, List.mem_filter, bne_iff_ne, hlater d hd]

section Run

variable (P : σ → Prop) (short : Prop) {order : List Nat} (hd : order.Nodup)
  {visit : Nat → σ → σ × List Nat} {checked : Nat → σ → Except Miss (σ × List Nat)}
  (h : ∀ b ∈ order, ∀ s, P s → Gives short (checked b s) (visit b s) ∧ P (visit b s).1 ∧
    ∀ c ∈ (visit b s).2, c ∈ order)

include hd h

/-- **The checked loop does what the loop does**, as long as a visit of a block of the order misses
    nothing and wakes blocks of the order only. -/
theorem runChecked_gives (cap : Nat) {waiting : List Nat} (hw : ∀ b ∈ waiting, b ∈ order) {s : σ} (hs : P s)
    (n : Nat) :
    Gives short (runChecked order checked cap waiting s n)
      (run order visit cap (order.filter fun d => waiting.contains d) s n) ∧
    P (run order visit cap (order.filter fun d => waiting.contains d) s n).state := by
  induction cap generalizing waiting s n with
  | zero =>
    cases waiting with
    | nil =>
      rw [List.filter_eq_nil_iff.mpr (by simp), run_nil]
      exact ⟨.of_eq rfl, hs⟩
    | cons b rest =>
      obtain ⟨c, later, _, hsplit⟩ := pick_eq hw
      rw [hsplit]
      exact ⟨.of_eq rfl, hs⟩
  | succ cap ih =>
    cases waiting with
    | nil =>
      rw [List.filter_eq_nil_iff.mpr (by simp), run_nil]
      exact ⟨.of_eq rfl, hs⟩
    | cons b rest =>
      obtain ⟨c, later, hpick, hsplit⟩ := pick_eq hw
      have hc : c ∈ order := (List.mem_filter.mp (hsplit ▸ List.mem_cons_self)).1
      obtain ⟨hvisit, hnext, hwoken⟩ := h c hc s hs
      have hrun : run order visit (cap + 1) (c :: later) s n =
          run order visit cap (enqueue order later (visit c s).2) (visit c s).1 (n + 1) := rfl
      rw [hsplit, runChecked, hpick, ok_bind, hrun, enqueue_eq_filter hd hsplit]
      refine (ih (fun d hd => ?_) hnext (n + 1)).imp_left hvisit.bind
      rcases List.mem_append.mp hd with hd | hd
      · exact hw d (List.mem_filter.mp hd).1
      · exact hwoken d hd

/-- The same when one block waits at first. -/
theorem runChecked_single (cap : Nat) {b : Nat} (hb : b ∈ order) {s : σ} (hs : P s) (n : Nat) :
    Gives short (runChecked order checked cap [b] s n) (run order visit cap [b] s n) ∧
      P (run order visit cap [b] s n).state := by
  have hone : order.filter (fun d => [b].contains d) = [b] := by
    have hsame : (order.filter fun d => [b].contains d) = order.filter fun d => d == b :=
      List.filter_congr fun d _ => by rw [List.contains_cons, List.contains_nil, Bool.or_false]
    rw [hsame, List.filter_beq, List.count_eq_one_of_mem hd hb]
    rfl
  have hrun := runChecked_gives P short hd h cap (fun c hc => List.mem_singleton.mp hc ▸ hb) hs n
  rw [hone] at hrun
  exact hrun

/-- The same when all blocks wait at first. -/
theorem runChecked_all (cap : Nat) {s : σ} (hs : P s) (n : Nat) :
    Gives short (runChecked order checked cap order s n) (run order visit cap order s n) ∧
      P (run order visit cap order s n).state := by
  have hall : order.filter (fun d => order.contains d) = order :=
    List.filter_eq_self.mpr fun d hd => List.contains_iff_mem.mpr hd
  have hrun := runChecked_gives P short hd h cap (fun _ hc => hc) hs n
  rw [hall] at hrun
  exact hrun

end Run

end Worklist

end Ownership
